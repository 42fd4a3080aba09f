import JsxToJinja.Proofs.Content.NestedTexts
import JsxToJinja.Proofs.Content.WrittenCode

/-! Content of written code. Each expression gives the content of its parts put together, whatever depth
it is nested to. -/
namespace JsxToJinja

theorem Code.Junction.one_le_level (j : Code.Junction) : 1 ≤ j.level := by
  cases j <;> decide

namespace Content
open JsxToJinja.Text JsxToJinja.Code JsxToJinja.Markup
open JsxToJinja.Qualified (Around)

/-! ### Parts put together -/

/-- One content or another. Sides that iterate become branches. -/
def eitherOf (condition : String) (yes no : List Content) : Content :=
  if !yes.isEmpty && !no.isEmpty && (yes ++ no).any iterates then
    .branches [.mk (some condition) yes, .mk none no]
  else chosenBy condition yes no

def firstOf (arms : List (List Char × List Content)) : Content :=
  if arms.all (fun a => isMemberPath a.1 || (stringLiteral? a.1).isSome) &&
      !(arms.flatMap (·.2)).any iterates then
    .fallback (arms.map fun a => code a.1)
  else .branches (armsOf arms)

def joinedBy : Junction → List (List Char × List Content) → List Char × List Content → Content
  | .disj, left, last => firstOf (left ++ [last])
  | .conj, left, last => guardedBy (code (" && ".toList.intercalate (left.map (·.1)))) last.2

def withTag (l : Loop) (tag : OpeningTag) : Loop :=
  { l with
    spread := tag.spreads.contains l.itemVar
    props := (tag.props.filter (·.name != "key")).map fun p => (p.name, propCode p.value)
    tag := if isComponentName tag.name then some tag.name else none }

def overItems (l : Loop) (body : List Content) : Content :=
  if l.destructured.isEmpty then .arrayMap l body
  else
    let field := qualify l.destructured l.itemVar
    .arrayMap { l with props := l.props.map fun p => (p.1, field p.2) } (mapCodeAll field body)

def iteration (l : LoopText) (tag : Option OpeningTag) (body : List Content) : Content :=
  match binders? l.params with
  | none => .unsupported (String.ofList l.text)
  | some (itemVar, destructured, indexVar) =>
    let head : Loop := { array := code l.array, itemVar, destructured, indexVar }
    overItems ((tag.map (withTag head)).getD head) body

variable {read : Reader}

theorem value_ofTernary (condition yes no : List Char) :
    (ofTernary read condition yes no).value =
      eitherOf (code condition) (ofOperand read yes).value (ofOperand read no).value := by
  simp only [ofTernary, Reviewed.value_bind, eitherOf, chosenBy]
  generalize (ofOperand read yes).value = yes
  generalize (ofOperand read no).value = no
  cases hno : no.isEmpty <;> cases hyes : yes.isEmpty <;> cases hloop : (yes ++ no).any iterates
  all_goals simp only [Bool.not_true, Bool.not_false, Bool.and_self, Bool.and_false, Bool.and_true,
    Bool.false_eq_true, if_true, if_false, Reviewed.value_pure]
  obtain _ | ⟨a, _ | ⟨_, _⟩⟩ := yes <;> obtain _ | ⟨b, _ | ⟨_, _⟩⟩ := no <;> rfl

/-- The content of a fallback is put together from the contents of its operands. -/
theorem value_ofFallback {t : List Char} {arms : List (List Char × List Content)}
    (hsplit : splitTopLevel t "||".toList = arms.map (·.1)) (hlen : arms.length ≠ 1)
    (harms : ∀ a ∈ arms, (ofOperand read a.1).value = a.2) :
    (ofFallback read t).value = firstOf arms := by
  have hoperands : fallbackOperands t = arms.map (·.1) := by
    rw [fallbackOperands, hsplit, if_neg (by simpa using hlen)]
  have hbodies : (ofOperands read (arms.map (·.1))).value = arms.map (·.2) := by
    rw [value_ofOperands, List.map_map]
    exact List.map_congr_left harms
  have hzip : (arms.map (·.1)).zip (arms.map (·.2)) = arms := by
    rw [List.zip_map']
    exact List.map_id arms
  have hsimple : ((arms.map (·.1)).all fun o => isMemberPath o || (stringLiteral? o).isSome) =
      arms.all fun a => isMemberPath a.1 || (stringLiteral? a.1).isSome := List.all_map
  have hcodes : (arms.map (·.1)).map code = arms.map fun a => code a.1 := List.map_map
  simp only [ofFallback, Reviewed.value_bind, hoperands, hbodies, hzip, hsimple, hcodes, firstOf,
    List.flatMap_def]
  split <;> rfl

theorem value_ofConjunction {t last : List Char} {left : List (List Char)}
    (hsplit : splitTopLevel t "&&".toList = left ++ [last]) :
    (ofConjunction read t).value =
      [guardedBy (code (" && ".toList.intercalate left)) (ofOperand read last).value] := by
  simp only [ofConjunction, hsplit, List.getLast?_concat, List.dropLast_concat, Reviewed.value_bind]
  split
  · rename_i hbody
    rw [hbody]
    rfl
  · rename_i hother
    rw [guardedBy.eq_2 _ _ hother]
    rfl

theorem withElement_eq {l : Loop} {e : Element} {tag : OpeningTag} (hname : e.name = tag.name)
    (hprops : e.props = tag.props) (hspreads : e.spreads = tag.spreads) :
    withElement l e = withTag l tag := by
  simp only [withElement, withTag, Element.isComponent, hname, hprops, hspreads]

/-- Content for each item: that of the element the body makes up, or that of the body. -/
theorem value_ofLoop? {t body : List Char} {head : Loop} (h : loopHead? t = some (head, body)) :
    (ofLoop? read t).map (·.value) =
      some (overItems (((wholeElement? body).map (withElement head)).getD head)
        ((wholeElement? body).elim (read body).value fun e => (ofElement read e).value)) := by
  simp only [ofLoop?, h, Option.map_some, overItems]
  cases wholeElement? body with
  | none => simp only [Option.elim_none]; split <;> rfl
  | some e => simp only [Option.elim_some]; split <;> rfl

/-! ### Content of what is written -/

def unlessNothing (alone : Bool) (t : List Char) (cs : List Content) : List Content :=
  if !alone && isNothing t then [] else cs

abbrev Form.Value : Form → Type
  | .markup _ => List Content
  | .code => Bool → List Content
  | .chain _ => List (List Char × List Content)

namespace Written

def element? : {f : Form} → Written f → Option (Written (.markup .element))
  | _, embedded e => some e
  | _, paren _ e => e.element?
  | _, _ => none

def content : {f : Form} → Written f → f.Value
  | _, closed tag => tagged tag.opening []
  | _, paired tag inner => tagged tag.opening inner.content
  | _, nested e => e.content
  | _, braces _ e => e.content true
  | _, last t => ofText t
  | _, next t child rest => ofText t ++ (child.content ++ rest.content)
  | _, path t => fun alone => unlessNothing alone t [.reference (code t) none]
  | _, quoted v t => fun alone => unlessNothing alone t [.literal (String.ofList v)]
  | _, embedded e => fun alone => if alone then [.unsupported (String.ofList e.text)] else e.content
  | _, loop array sign params around body => fun _ =>
    [iteration ⟨array, sign, params, padded around body.text⟩ (body.element?.map (·.frame.opening))
      (body.content body.element?.isNone)]
  | _, paren _ e => e.content
  | _, cond c _ a _ b => fun _ => [eitherOf (code c.text) (a.content false) (b.content false)]
  | _, join (j := j) left _ e => fun _ => [joinedBy j left.content (e.text, e.content false)]
  | _, first e => [(e.text, e.content false)]
  | _, more left _ e => left.content ++ [(e.text, e.content false)]

def operands : {f : Form} → Written f → List (List Char)
  | _, first e => [e.text]
  | _, more left _ e => left.operands ++ [e.text]
  | _, _ => []

variable {f : Form} {inside : Bool}

theorem content_core (e : Written f) : e.core.content = e.content := by
  induction e with
  | paren around e ih => exact ih
  | _ => rfl

theorem element?_core (e : Written f) : e.core.element? = e.element? := by
  induction e with
  | paren around e ih => exact ih
  | _ => rfl

theorem operands_eq {j : Junction} (left : Written (.chain j)) :
    left.content.map (·.1) = left.operands := by
  induction left using chain_induction with
  | first e => rfl
  | more left around e ih => rw [content, operands, List.map_append, ih]; rfl

theorem operands_ne_nil {j : Junction} (left : Written (.chain j)) : left.operands ≠ [] := by
  cases left <;> simp [operands]

/-! ### How it comes apart -/

theorem Fits.isPiece {j : Junction} {e : Written .code} (h : e.Fits true) (hl : j.level < e.level)
    {u v : List Char} (hu : Blank u) (hv : Blank v) : IsPiece j.char (u ++ (e.text ++ v)) e.text := by
  have hedged := h.edged (by simp)
  have hsealed : Sealed [j.char] e.text := by
    refine h.sealed (fun c hc => clear_subset hl ?_) fun c hc => ?_
    all_goals
      rw [List.mem_singleton.1 hc]
      cases j <;> decide
  exact .pad hsealed hedged.trimmed hedged.ne_nil (by cases j <;> decide) hu hv

/-- Operands with the blanks around them, the last of them in front of more blanks. -/
theorem Fits.pieces {j : Junction} {left : Written (.chain j)} (h : left.Fits true) {w : List Char}
    (hw : Blank w) :
    ∃ rs ≠ [], left.text ++ w = j.symbol.intercalate rs ∧
      List.Forall₂ (IsPiece j.char) rs left.operands := by
  induction left using chain_induction generalizing w with
  | first e =>
    refine ⟨[e.text ++ w], by simp, by simp [text, List.intercalate], .cons ?_ .nil⟩
    exact h.2.isPiece h.1 blank_nil hw
  | more left around e ih =>
    obtain ⟨rs, hne, htext, hpieces⟩ := ih h.1 around.before.blank
    refine ⟨rs ++ [around.after.chars ++ (e.text ++ w)], by simp, ?_, ?_⟩
    · rw [intercalate_concat hne, ← htext]
      simp [text]
    · exact List.rel_append hpieces (.cons (h.2.2.isPiece h.2.1 around.after.blank hw) .nil)

/-- Joined expressions come apart into their operands. -/
theorem Fits.split_join {j : Junction} {left : Written (.chain j)} {around : Around}
    {e : Written .code} (h : (join left around e).Fits true) :
    splitTopLevel (join left around e).text j.symbol = left.operands ++ [e.text] := by
  obtain ⟨hleft, hlevel, he⟩ := h
  obtain ⟨rs, hne, htext, hpieces⟩ := hleft.pieces around.before.blank
  have hlast := he.isPiece hlevel around.after.blank blank_nil
  have hall : List.Forall₂ (IsPiece j.char) (rs ++ [around.after.chars ++ (e.text ++ [])])
      (left.operands ++ [e.text]) := List.rel_append hpieces (.cons hlast .nil)
  have hjoin : (join left around e).text =
      j.symbol.intercalate (rs ++ [around.after.chars ++ (e.text ++ [])]) := by
    rw [intercalate_concat hne, ← htext]
    simp [text]
  rw [hjoin]
  exact splitTopLevel_pieces j.cutting (by cases j <;> decide) hall

theorem Fits.contains_join {j : Junction} {left : Written (.chain j)} {around : Around}
    {e : Written .code} (h : (join left around e).Fits true) :
    containsTopLevel (join left around e).text j.symbol = true := by
  rw [← Bool.not_eq_false]
  intro hnone
  have hsplit := h.split_join
  rw [splitTopLevel_of_not_contains (by simp [Junction.symbol]) hnone] at hsplit
  have hlen := congrArg List.length hsplit
  have hle := List.length_filter_le (fun t : List Char => !t.isEmpty) [trim (join left around e).text]
  have hpos : left.operands ≠ [] := left.operands_ne_nil
  have := List.length_pos_iff.2 hpos
  simp only [List.length_append, List.length_singleton] at hlen hle
  omega

/-! ### What the scans do not find -/

theorem Fits.no_conditional {e : Written .code} (h : e.Fits true) (hl : 1 ≤ e.level) :
    splitTernary? e.text = none ∧ containsTopLevel e.text "??".toList = false := by
  have hs : Sealed ['?'] e.text := by
    refine h.sealed (fun c hc => clear_subset hl ?_) fun c hc => ?_
    all_goals
      rw [List.mem_singleton.1 hc]
      decide
  exact ⟨hs.splitTernary?_eq_none (by simp), hs.containsTopLevel_coalesce (by simp)⟩

theorem Fits.no_junction {j : Junction} {e : Written .code} (h : e.Fits true)
    (hl : j.level < e.level) : containsTopLevel e.text j.symbol = false :=
  have hpiece := h.isPiece hl blank_nil blank_nil
  have hs : Sealed [j.char] e.text := by simpa using hpiece.sealed
  hs.containsTopLevel_eq_false j.cutting [j.char]

theorem isNothing_of_mem {t : List Char} {c : Char} (hc : c ∈ t) (hs : c ∈ "?&|(".toList) :
    isNothing t = false := by
  have hwords : ∀ w ∈ ["null", "undefined", "false", "\x27\x27", "\"\""], ∀ d ∈ w.toList,
      d ∉ "?&|(".toList := by decide
  rw [← Bool.not_eq_true, isNothing, List.any_eq_true]
  rintro ⟨w, hw, he⟩
  rw [beq_iff_eq.1 he] at hc
  exact hwords w hw c hc hs

/-- With something behind it no expression makes up an element. -/
theorem Fits.wholeElement?_append {e : Written f} (h : e.Fits true) (hf : ∀ part, f ≠ .markup part)
    {rest : List Char} (hr : rest ≠ []) : wholeElement? (e.text ++ rest) = none := by
  induction e generalizing rest with
  | path t =>
    have hedged := IsPath.head?_ne (d := '<') h (by decide)
    refine wholeElement?_of_head ?_
    rwa [text, List.head?_append_of_ne_nil _ (IsPath.edged h).ne_nil]
  | quoted v t => exact wholeElement?_of_head (Quoted.head?_ne h (by decide) rest)
  | embedded e =>
    have hframe : e.frame.Fits true := Fits.frame h
    rw [text, ← print_frame]
    exact hframe.wholeElement?_append hr
  | loop array sign params around body =>
    refine wholeElement?_of_head ?_
    have hhead := h.1.head?_ne (d := '<') (by decide)
    simpa [text, LoopText.text, LoopText.front, List.head?_append_of_ne_nil _ h.1.edged.ne_nil] using hhead
  | paren around e => exact wholeElement?_of_head (by simp [text])
  | cond c question a colon b ihc =>
    rw [text, List.append_assoc]
    exact ihc h.2.1 (by simp) (by simp)
  | join left around e ihl | more left around e ihl =>
    rw [text, List.append_assoc]
    exact ihl h.1 (by simp) (by simp [Junction.symbol])
  | first e ih => exact ih h.2 (by simp) hr
  | _ => exact absurd rfl (hf _)

variable {read : Reader}

/-- The reader makes of the markup what it makes of the code in it. -/
theorem Fits.value_frame {part : Part} {m : Written (.markup part)} (h : m.Fits inside)
    (hread : ∀ e : Written .code, e.Fits true → e.text.length < m.text.length →
      (read e.text).value = e.content true) :
    m.frame.content (fun c => (read c).value) = m.content := by
  induction m using markup_induction generalizing inside with
  | closed tag => rfl
  | paired tag inner ih =>
    have hinner := ih h fun e he hlen => hread e he (by simp only [text, List.length_append]; omega)
    rw [Written.frame, Frame.content, hinner]
    rfl
  | nested e ih => exact ih h hread
  | braces around e =>
    have hcode : e.Fits true := h
    have hlen : e.text.length < (braces around e).text.length := by
      simp only [text, padded, List.length_cons, List.length_append]
      omega
    rw [Written.frame, Frame.content, hcode.trim_padded, hread e hcode hlen]
    rfl
  | last t => rfl
  | next t child rest ihc ihr =>
    have hchild := ihc h.2.1 fun e he hlen => hread e he (by simp only [text, List.length_append]; omega)
    have hrest := ihr h.2.2 fun e he hlen => hread e he (by simp only [text, List.length_append]; omega)
    rw [Written.frame, Frame.content, hchild, hrest]
    rfl

/-- A text that is no element is left to the reader if it renders something. -/
theorem value_operand {t : List Char} {cs : List Content} (hw : wholeElement? t = none)
    (hread : (read t).value = cs) :
    (if isNothing t then pure [] else match wholeElement? t with
      | some e => ofElement read e
      | none => read t).value = unlessNothing false t cs := by
  cases hn : isNothing t <;> simp [hw, hread, unlessNothing, hn]

/-- In an operand nothing is kept of what renders nothing. -/
theorem content_operand (e : Written .code) (he : e.element? = none) (hs : isGroup '(' e.text = false)
    (h : e.Fits true) : unlessNothing false e.text (e.content true) = e.content false := by
  have hfull {c : Char} (hc : c ∈ e.text) (hs : c ∈ "?&|(".toList) (cs : List Content) :
      unlessNothing false e.text cs = cs := by
    rw [unlessNothing, isNothing_of_mem hc hs]
    rfl
  cases e with
  | path t => rfl
  | quoted v t => rfl
  | embedded m => cases he
  | loop array sign params around body =>
    exact hfull (c := '(') (by simp [text, LoopText.text]) (by decide) _
  | cond c question a colon b => exact hfull (c := '?') (by simp [text]) (by decide) _
  | @join j left around last =>
    exact hfull (c := j.char) (by simp [text, Junction.symbol]) (by cases j <;> decide) _
  | paren around e =>
    have he : e.Fits true := h
    rw [text, isGroup_paren he.nests around.before.blank around.after.blank] at hs
    cases hs

/-- Without its parentheses an expression is an element or makes up none. -/
theorem Fits.core_cases {e : Written .code} (h : e.Fits true) :
    (∃ m : Written (.markup .element), e.core = embedded m) ∨
      (e.element? = none ∧ wholeElement? e.core.text = none) := by
  obtain ⟨-, hcore, hsingle, -⟩ := h.strip rfl
  rw [← e.element?_core]
  generalize e.core = u at hcore hsingle
  cases u with
  | embedded m => exact .inl ⟨m, rfl⟩
  | path t => exact .inr ⟨rfl, wholeElement?_of_head (IsPath.head?_ne hcore (by decide))⟩
  | quoted v t =>
    have hhead : t.head? ≠ some '<' := by simpa using Quoted.head?_ne (d := '<') hcore (by decide) []
    exact .inr ⟨rfl, wholeElement?_of_head hhead⟩
  | loop array sign params around body =>
    have hhead : (loop array sign params around body).text.head? ≠ some '<' := by
      have hhead := hcore.1.head?_ne (d := '<') (by decide)
      simpa [text, LoopText.text, LoopText.front,
        List.head?_append_of_ne_nil _ hcore.1.edged.ne_nil] using hhead
    exact .inr ⟨rfl, wholeElement?_of_head hhead⟩
  | cond c question a colon b =>
    exact .inr ⟨rfl, hcore.2.1.wholeElement?_append (by simp) (by simp)⟩
  | join left around last =>
    exact .inr ⟨rfl, hcore.1.wholeElement?_append (by simp) (by simp [Junction.symbol])⟩
  | paren around e =>
    have he : e.Fits true := hcore
    rw [text, isGroup_paren he.nests around.before.blank around.after.blank] at hsingle
    cases hsingle

/-- An element is read as a whole. -/
theorem Fits.wholeElement {m : Written (.markup .element)} (h : m.Fits true)
    (hread : ∀ e : Written .code, e.Fits true → e.text.length < m.text.length →
      (read e.text).value = e.content true) :
    ∃ e, wholeElement? m.text = some e ∧ (ofElement read e).value = m.content ∧
      ∀ l, withElement l e = withTag l m.frame.opening := by
  obtain ⟨e, hwhole, hname, hprops, hspreads, hvalue⟩ := h.frame.wholeElement
  rw [print_frame] at hwhole
  exact ⟨e, hwhole, (hvalue read).trans (h.value_frame hread), fun l =>
    withElement_eq hname hprops hspreads⟩

/-- As an operand an expression gives its content without what renders nothing. -/
theorem Fits.value_ofOperand {e : Written .code} (h : e.Fits true)
    (hread : ∀ e' : Written .code, e'.Fits true → e'.text.length ≤ e.text.length →
      (read e'.text).value = e'.content true) : (ofOperand read e.text).value = e.content false := by
  obtain ⟨hstrip, hcore, hsingle, hin⟩ := h.strip rfl
  have hshort := hin.length_le
  have hcases := h.core_cases
  rw [ofOperand, hstrip, ← e.content_core]
  rw [← e.element?_core] at hcases
  generalize e.core = u at hcore hsingle hshort hcases
  rcases hcases with ⟨m, rfl⟩ | ⟨hnone, hwhole⟩
  · have hm : m.Fits true := hcore
    obtain ⟨el, hwhole, hvalue, -⟩ := hm.wholeElement fun e he hlen =>
      hread e he (Nat.le_of_lt (Nat.lt_of_lt_of_le hlen hshort))
    simp only [text, Frame.isNothing_of_head m.head?_text, hwhole, Bool.false_eq_true, if_false, hvalue]
    rfl
  · exact (value_operand hwhole (hread u hcore hshort)).trans (content_operand u hnone hsingle hcore)

/-- The item's content is that of the element the body makes up, or else that of the body. -/
theorem Fits.value_body {body : Written .code} (h : body.Fits true)
    (hread : ∀ e : Written .code, e.Fits true → e.text.length ≤ body.text.length →
      (read e.text).value = e.content true) (l : Loop) :
    ((wholeElement? body.core.text).map (withElement l)).getD l =
        ((body.element?.map (·.frame.opening)).map (withTag l)).getD l ∧
      (wholeElement? body.core.text).elim (read body.core.text).value
          (fun e => (ofElement read e).value) = body.content body.element?.isNone := by
  obtain ⟨-, hcore, -, hin⟩ := h.strip rfl
  have hshort := hin.length_le
  rw [← body.content_core]
  rcases h.core_cases with ⟨m, hm⟩ | ⟨hnone, hwhole⟩
  · have helement : body.element? = some m := by rw [← body.element?_core, hm]; rfl
    rw [hm] at hcore hshort ⊢
    have hfits : m.Fits true := hcore
    obtain ⟨el, hwhole, hvalue, htag⟩ := hfits.wholeElement fun e he hlen =>
      hread e he (Nat.le_of_lt (Nat.lt_of_lt_of_le hlen hshort))
    rw [helement, text, hwhole]
    exact ⟨htag l, hvalue⟩
  · rw [hnone, hwhole]
    exact ⟨rfl, hread body.core hcore hshort⟩

/-! ### One step -/

/-- Content of what no operator outside brackets takes apart. -/
def ofSingle (read : Reader) (t : List Char) : Reviewed (List Content) :=
  if containsTopLevel t ".map(".toList then
    match ofLoop? read t with
    | some found => do pure [← found]
    | none => unsupportedCode t "Unrecognized array iteration"
  else match stringLiteral? t with
  | some s => pure [.literal (String.ofList s)]
  | none =>
  if isMemberPath t then pure [.reference (code t) none]
  else match ofCall? t with
  | some c => pure [c]
  | none => unsupportedCode t "Unsupported content expression"

/-- Outside parentheses the expression is an operand. -/
structure Bare (e : Written .code) : Prop where
  fits : e.Fits true
  strip : stripOuterParens e.text = e.text
  filled : e.text.isEmpty = false

theorem Fits.step_single {e : Written .code} (h : Bare e) (hl : e.level = 5) :
    ofExpressionStep read e.text = ofSingle read e.text := by
  have hcond := h.fits.no_conditional (by omega)
  have hdisj : containsTopLevel e.text "||".toList = false :=
    h.fits.no_junction (j := .disj) (by rw [hl]; decide)
  have hconj : containsTopLevel e.text "&&".toList = false :=
    h.fits.no_junction (j := .conj) (by rw [hl]; decide)
  generalize hsingle : ofSingle read e.text = single
  simp only [ofExpressionStep, h.strip, h.filled, hcond.1, hcond.2, hdisj, hconj, Bool.or_self,
    Bool.false_eq_true, if_false]
  exact hsingle

theorem value_step_path {t : List Char} (h : Bare (path t)) :
    (ofExpressionStep read t).value = [.reference (code t) none] := by
  have ht : IsPath t := h.fits
  have hstep : ofExpressionStep read t = ofSingle read t := Fits.step_single h rfl
  rw [hstep, ofSingle, containsTopLevel_map (.inl ht), ht.stringLiteral?_eq_none,
    isMemberPath_of_isPath ht]
  rfl

theorem value_step_quoted {v t : List Char} (h : Bare (quoted v t)) :
    (ofExpressionStep read t).value = [.literal (String.ofList v)] := by
  have ht : Quoted v t := h.fits
  have hstep : ofExpressionStep read t = ofSingle read t := Fits.step_single h rfl
  rw [hstep, ofSingle, containsTopLevel_map (.inr ⟨v, ht⟩), ht.stringLiteral?_eq]
  rfl

/-- Every conditional in an expression is complete. -/
theorem Fits.paired {e : Written f} (h : e.Fits true) (hf : f = .code) : Paired e.text := by
  have hflat {e : Written .code} (h : e.Fits true) (hl : 1 ≤ e.level) : Paired e.text := by
    have hs : Sealed ['?', ':'] e.text := by
      refine h.sealed (fun c hc => clear_subset hl ?_) fun c hc => ?_
      all_goals
        simp only [List.mem_cons, List.not_mem_nil, or_false] at hc
        rcases hc with rfl | rfl <;> decide
    exact hs.paired (by simp) (by simp)
  have hpad {p : List Char} (hp : Blank p) : Paired p := by
    have hs : Sealed ['?', ':'] p := sealed_of_blank hp (by decide)
    exact hs.paired (by simp) (by simp)
  induction e with
  | cond c question a colon b ihc iha ihb =>
    obtain ⟨-, hc, ha, hb⟩ := h
    have htext : (cond c question a colon b).text = (c.text ++ question.before.chars) ++
        '?' :: ((question.after.chars ++ (a.text ++ colon.before.chars)) ++
          ':' :: (colon.after.chars ++ b.text)) := by simp [text]
    rw [htext]
    exact ((ihc hc rfl).append (hpad question.before.blank)).conditional
      ((hpad question.after.blank).append ((iha ha rfl).append (hpad colon.before.blank)))
      ((hpad colon.after.blank).append (ihb hb rfl)) ((hc.edged (by simp)).endsPlain question.before.blank)
      ((ha.edged (by simp)).startsPlain question.after.blank _)
  | path | quoted | embedded | loop | paren => exact hflat h (by decide : 1 ≤ 5)
  | @join j => exact hflat h j.one_le_level
  | _ => cases hf

/-- A conditional shows one of two contents, by its code. -/
theorem value_step_cond {c a b : Written .code} {question colon : Around}
    (h : Bare (cond c question a colon b)) (ha : (ofOperand read a.text).value = a.content false)
    (hb : (ofOperand read b.text).value = b.content false) :
    (ofExpressionStep read (cond c question a colon b).text).value =
      [eitherOf (code c.text) (a.content false) (b.content false)] := by
  obtain ⟨hlevel, hc, hfa, hfb⟩ := h.fits
  have hsealed : Sealed ['?'] c.text := by
    refine hc.sealed (fun d hd => clear_subset hlevel ?_) fun d hd => ?_
    all_goals
      rw [List.mem_singleton.1 hd]
      decide
  have hsplit : splitTernary? (cond c question a colon b).text = some (c.text, a.text, b.text) :=
    splitTernary?_parts (hc.edged (by simp)) hsealed (hfa.edged (by simp)) (hfa.paired rfl)
      (hfb.edged (by simp)) question.before.blank question.after.blank colon.before.blank
      colon.after.blank
  simp only [ofExpressionStep, h.strip, h.filled, hsplit, Bool.false_eq_true, if_false,
    Reviewed.value_bind, Reviewed.value_pure, value_ofTernary, ha, hb]

/-- Joined operands show what the junction makes of their contents. -/
theorem value_step_join {j : Junction} {left : Written (.chain j)} {around : Around}
    {last : Written .code} (h : Bare (join left around last))
    (hleft : ∀ a ∈ left.content, (ofOperand read a.1).value = a.2)
    (hlast : (ofOperand read last.text).value = last.content false) :
    (ofExpressionStep read (join left around last).text).value =
      [joinedBy j left.content (last.text, last.content false)] := by
  obtain ⟨hcond, hcoalesce⟩ := h.fits.no_conditional j.one_le_level
  have hsplit := h.fits.split_join
  have hfound := h.fits.contains_join
  cases j with
  | disj =>
    have hor : containsTopLevel (join left around last).text "||".toList = true := hfound
    have harms : ∀ a ∈ left.content ++ [(last.text, last.content false)],
        (ofOperand read a.1).value = a.2 := by
      intro a ha
      rcases List.mem_append.1 ha with ha | ha
      · exact hleft a ha
      · rw [List.mem_singleton.1 ha]
        exact hlast
    have hparts : splitTopLevel (join left around last).text "||".toList =
        (left.content ++ [(last.text, last.content false)]).map (·.1) := by
      rw [List.map_append, operands_eq]
      exact hsplit
    have hlen : (left.content ++ [(last.text, last.content false)]).length ≠ 1 := by
      have := List.length_pos_iff.2 left.operands_ne_nil
      rw [← operands_eq, List.length_map] at this
      simp only [List.length_append, List.length_singleton]
      omega
    simp only [ofExpressionStep, h.strip, h.filled, hcond, hor, Bool.true_or, Bool.false_eq_true,
      if_false, if_true, Reviewed.value_bind, Reviewed.value_pure, value_ofFallback hparts hlen harms,
      joinedBy]
  | conj =>
    have hor : containsTopLevel (join left around last).text "||".toList = false :=
      h.fits.no_junction (by decide : Junction.disj.level < Junction.conj.level)
    have hand : containsTopLevel (join left around last).text "&&".toList = true := hfound
    have hparts : splitTopLevel (join left around last).text "&&".toList =
        left.operands ++ [last.text] := hsplit
    simp only [ofExpressionStep, h.strip, h.filled, hcond, hor, hcoalesce, hand, Bool.or_self,
      Bool.false_eq_true, if_false, if_true, value_ofConjunction hparts, hlast, joinedBy, operands_eq]

/-- A loop shows its body for every item; the reader is only asked for texts no longer than the
body. -/
theorem value_step_loop {array sign params : List Char} {around : Around} {body : Written .code}
    (h : Bare (loop array sign params around body))
    (hread : ∀ e : Written .code, e.Fits true → e.text.length ≤ body.text.length →
      (read e.text).value = e.content true) :
    (ofExpressionStep read (loop array sign params around body).text).value =
      (loop array sign params around body).content true := by
  have hbody : body.Fits true := h.fits.2.2.2
  let l : LoopText := ⟨array, sign, params, padded around body.text⟩
  have hl : l.Fits := loopText_fits h.fits hbody.nests
  have hmap : containsTopLevel (loop array sign params around body).text ".map(".toList = true := by
    have hfind : findTopLevel? (loop array sign params around body).text ".map(".toList = _ := hl.find_map
    rw [containsTopLevel, hfind]
    rfl
  have hhead := hl.head
  rw [hbody.trim_padded around, (hbody.strip rfl).strip] at hhead
  rw [Fits.step_single h rfl, ofSingle, hmap, if_pos rfl, content, iteration]
  cases hb : binders? params with
  | none =>
    have hnone : ofLoop? read (loop array sign params around body).text = none := by
      have hnone : loopHead? (loop array sign params around body).text = none := by rw [hb] at hhead; exact hhead
      rw [ofLoop?, hnone]
      rfl
    rw [hnone]
    rfl
  | some b =>
    obtain ⟨itemVar, destructured, indexVar⟩ := b
    rw [hb] at hhead
    obtain ⟨htag, hcontent⟩ :=
      hbody.value_body hread { array := code array, itemVar, destructured, indexVar }
    obtain ⟨found, hfound, hvalue⟩ := Option.map_eq_some_iff.1 (value_ofLoop? hhead)
    have hsome : ofLoop? read (loop array sign params around body).text = some found := hfound
    rw [hsome, Reviewed.value_bind, Reviewed.value_pure, hvalue]
    exact congrArg (fun c => [c]) (congrArg₂ overItems htag hcontent)

/-- What is closed at the end of a text ends in a bracket. -/
theorem balancedEnd?_of_last {t : List Char} {start close : Nat} {c : Char}
    (h : balancedEnd? t start = some close) (hl : t.getLast? = some c) (hc : isClosing c = false) :
    close + 1 < t.length := by
  obtain ⟨n, hn, rfl⟩ := Option.map_eq_some_iff.1 h
  have hat : ∃ b, (t.drop start)[n]? = some b ∧ isClosing b = true := by
    cases ht : t.drop start with
    | nil => rw [ht] at hn; cases hn
    | cons o r =>
      rw [ht] at hn
      obtain ⟨b, hb, hn⟩ := Option.bind_eq_some_iff.1 hn
      obtain ⟨m, hm, hn⟩ := Option.bind_eq_some_iff.1 hn
      cases hn
      have hmem := List.mem_of_find?_eq_some hm
      have hfound := List.find?_some hm
      simp only [Bool.and_eq_true, beq_iff_eq] at hfound
      have hhead := head?_of_mem_marksFrom hmem
      rw [(rest_of_mem_marksFrom hmem).2, Nat.sub_zero, List.head?_drop, hfound.2] at hhead
      refine ⟨b, hhead, ?_⟩
      obtain ⟨-, rfl⟩ | ⟨-, rfl⟩ | ⟨-, rfl⟩ := closingFor?_cases hb <;> decide
  obtain ⟨b, hb, hclosing⟩ := hat
  rw [List.getElem?_drop] at hb
  have hlt := (List.getElem?_eq_some_iff.1 hb).1
  by_contra hlen
  have hend : start + n = t.length - 1 := by omega
  rw [hend, ← List.getLast?_eq_getElem?, hl, Option.some.injEq] at hb
  rw [← hb, hc] at hclosing
  cases hclosing

/-- Behind the call of an iteration stands nothing. -/
theorem loopHead?_of_last {t : List Char} {c : Char} (hl : t.getLast? = some c)
    (hc : isClosing c = false) (hb : isBlank c = false) : loopHead? t = none := by
  rw [loopHead?]
  cases findTopLevel? t ".map(".toList with
  | none => rfl
  | some i =>
    rw [Option.bind_eq_bind, Option.bind_some]
    dsimp only
    cases hclose : balancedEnd? t (i + 4) with
    | none => rfl
    | some close =>
      have hlt := balancedEnd?_of_last hclose hl hc
      have hrest : (trim (t.drop (close + 1))).isEmpty = false := by
        obtain ⟨u, v, hu, hv, hpad⟩ := exists_pad (t.drop (close + 1))
        have hmem : c ∈ t.drop (close + 1) := by
          refine List.mem_of_getLast? ?_
          rw [List.getLast?_drop, if_neg (by omega), hl]
        rw [List.isEmpty_eq_false_iff]
        intro hnil
        rw [hnil, List.nil_append] at hpad
        rw [hpad] at hmem
        exact absurd ((hu.append hv) _ hmem) (by simp [hb])
      rw [Option.bind_some, hrest]
      rfl

theorem ofCall?_of_last {t : List Char} {c : Char} (hl : t.getLast? = some c)
    (hc : isClosing c = false) : ofCall? t = none := by
  rw [ofCall?]
  cases callHead.find? t with
  | none => rfl
  | some found =>
    rw [Option.bind_eq_bind, Option.bind_some]
    cases hclose : balancedEnd? t (found.stop - 1) with
    | none => rfl
    | some close =>
      have hne : (close + 1 == t.length) = false := by
        have := balancedEnd?_of_last hclose hl hc
        rw [beq_eq_false_iff_ne]
        omega
      rw [Option.bind_eq_bind, Option.bind_some, hne]
      rfl

/-- A path is made of names, dots and question marks. -/
theorem char_of_isMemberPath {t : List Char} (h : isMemberPath t = true) {c : Char} (hc : c ∈ trim t) :
    isIdentifierChar c = true ∨ c = '.' ∨ c = '?' := by
  by_contra hnone
  simp only [not_or] at hnone
  obtain ⟨hname, hdot, hquestion⟩ := hnone
  have hkept : c ∈ replaceAll ['?', '.'] ['.'] (trim t) :=
    mem_replaceAll (by simp) (by simp [hdot, hquestion]) hc
  simp only [isMemberPath, Bool.and_eq_true, List.all_eq_true] at h
  have hpiece : ∃ p ∈ splitOn ['.'] (replaceAll ['?', '.'] ['.'] (trim t)), c ∈ p :=
    mem_splitOn (by simp) (by simpa using hdot) hkept
  obtain ⟨p, hp, hin⟩ := hpiece
  exact hname (isIdentifierChar_of_mem (h.2 p hp) hin)

theorem isMemberPath_of_head {t : List Char} {c : Char} (h : (trim t).head? = some c)
    (hc : isIdentifierChar c = false) (hd : c ≠ '.') (hq : c ≠ '?') : isMemberPath t = false := by
  rw [← Bool.not_eq_true]
  intro hpath
  rcases char_of_isMemberPath hpath (List.mem_of_head? h) with h | h | h
  · simp [hc] at h
  · exact hd h
  · exact hq h

/-- An element alone between braces is not understood. -/
theorem value_step_embedded {m : Written (.markup .element)} (h : Bare (embedded m)) :
    (ofExpressionStep read m.text).value = [.unsupported (String.ofList m.text)] := by
  have hstep : ofExpressionStep read m.text = ofSingle read m.text := Fits.step_single h rfl
  have hlast : m.text.getLast? = some '>' := m.print_frame ▸ m.frame.getLast?_print
  have htrim : trim m.text = m.text := m.edged_text.trimmed.trim_eq
  have hloop : ofLoop? read m.text = none := by
    rw [ofLoop?, loopHead?_of_last hlast (by decide) (by decide)]
    rfl
  have hpath : isMemberPath m.text = false :=
    isMemberPath_of_head (c := '<') (by rw [htrim, head?_text]) (by decide) (by decide) (by decide)
  have hstring : stringLiteral? m.text = none :=
    stringLiteral?_of_head (by rw [htrim, head?_text]; simp [isQuote])
  rw [hstep, ofSingle, hloop, ofCall?_of_last hlast (by decide), hpath, hstring]
  split <;> rfl

/-- Every operand gives its content. -/
theorem Fits.value_left {j : Junction} {left : Written (.chain j)} (h : left.Fits true)
    (hread : ∀ a : Written .code, a.Fits true → a.text.length ≤ left.text.length →
      (ofOperand read a.text).value = a.content false) :
    ∀ a ∈ left.content, (ofOperand read a.1).value = a.2 := by
  induction left using chain_induction with
  | first e =>
    intro a ha
    rw [List.mem_singleton.1 ha]
    exact hread e h.2 (Nat.le_refl _)
  | more left around e ih =>
    intro a ha
    have hlen : left.text.length ≤ (more left around e).text.length ∧
        e.text.length ≤ (more left around e).text.length := by
      simp only [text, List.length_append]
      omega
    rcases List.mem_append.1 ha with ha | ha
    · exact ih h.1 (fun a ha hle => hread a ha (Nat.le_trans hle hlen.1)) a ha
    · rw [List.mem_singleton.1 ha]
      exact hread e h.2.2 hlen.2

/-- One step gives the content of an expression, if the reader does for shorter ones. -/
theorem Fits.value_step {e : Written .code} (h : e.Fits true)
    (hread : ∀ e' : Written .code, e'.Fits true → e'.text.length < e.text.length →
      (read e'.text).value = e'.content true) :
    (ofExpressionStep read e.text).value = e.content true := by
  obtain ⟨hstrip, hcore, hsingle, hin⟩ := h.strip rfl
  have hshort := hin.length_le
  have hbare : Bare e.core := ⟨hcore, (hcore.stripped hsingle).strip,
    by simpa using (hcore.edged (by simp)).ne_nil⟩
  have hstep : ofExpressionStep read e.text = ofExpressionStep read e.core.text := by
    rw [ofExpressionStep, ofExpressionStep, hstrip, hbare.strip]
  rw [hstep, ← e.content_core]
  generalize e.core = u at hsingle hshort hbare
  have hoperand {a : Written .code} (ha : a.Fits true) (hlen : a.text.length < u.text.length) :
      (ofOperand read a.text).value = a.content false :=
    ha.value_ofOperand fun e' he' hle => hread e' he' (by omega)
  have hfits := hbare.fits
  cases u with
  | path t => exact value_step_path hbare
  | quoted v t => exact value_step_quoted hbare
  | embedded m => exact value_step_embedded hbare
  | loop array sign params around body =>
    have hlen : body.text.length < (loop array sign params around body).text.length := by
      simp only [text, LoopText.text, LoopText.callback, padded, List.length_append, List.length_cons]
      omega
    exact value_step_loop hbare fun e he hle => hread e he (by omega)
  | cond c question a colon b =>
    have ha := hoperand hfits.2.2.1 (by simp only [text, List.length_append, List.length_cons]; omega)
    have hb := hoperand hfits.2.2.2 (by simp only [text, List.length_append, List.length_cons]; omega)
    exact value_step_cond hbare ha hb
  | @join j left around last =>
    have hlast := hoperand hfits.2.2
      (by simp only [text, Junction.symbol, List.length_append, List.length_cons]; omega)
    have hlen : left.text.length < (join left around last).text.length := by
      simp only [text, Junction.symbol, List.length_append, List.length_cons]
      omega
    exact value_step_join hbare
      (hfits.1.value_left fun a ha hle => hoperand ha (Nat.lt_of_le_of_lt hle hlen)) hlast
  | paren around e =>
    have he : e.Fits true := hfits
    rw [text, isGroup_paren he.nests around.before.blank around.after.blank] at hsingle
    cases hsingle

/-- Followed through as many nested expressions as it is long, an expression gives its content. -/
theorem Fits.value_ofExpressionWithin {n : Nat} {e : Written .code} (h : e.Fits true)
    (hn : e.text.length < n) : (ofExpressionWithin n e.text).value = e.content true := by
  induction n generalizing e with
  | zero => omega
  | succ n ih => exact h.value_step fun e' he' hlen => ih he' (by omega)

theorem Fits.value_ofExpression {e : Written .code} (h : e.Fits true) :
    (ofExpression e.text).value = e.content true := h.value_ofExpressionWithin (Nat.lt_succ_self _)

end Written

end Content

end JsxToJinja
