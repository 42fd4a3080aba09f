import JsxToJinja.Content.Bindings
import JsxToJinja.Proofs.Component.Declarations
import JsxToJinja.Proofs.Component.TypeResolution
import JsxToJinja.Proofs.Jinja.PlainCode
import JsxToJinja.Proofs.Markup.Offsets

/-! The texts that the content of an expression is read from. One step asks its reader for the content
of a fixed list of texts, which the code alone decides; all of them are shorter than the expression,
but for one form of it. -/
namespace JsxToJinja
open JsxToJinja.Text JsxToJinja.Code JsxToJinja.Markup

/-! ### Lengths of what code is cut into -/

namespace Code

/-- A piece lies behind the start. It is shorter than all the text there where another cut is made. -/
theorem length_of_mem_cutAt {t sep p : List Char} {ms : List Mark} {start : Nat}
    (hms : ∀ m ∈ ms, m.index < t.length) (hsep : 0 < sep.length) (hp : p ∈ cutAt t sep ms start) :
    p.length ≤ t.length - start ∧
      ((∃ m ∈ ms, start ≤ m.index ∧ m.starts sep = true) → p.length < t.length - start) := by
  induction ms generalizing start with
  | nil =>
    rw [List.mem_singleton.1 hp, List.length_drop]
    refine ⟨Nat.le_refl _, ?_⟩
    rintro ⟨m, hm, -⟩
    cases hm
  | cons m ms ih =>
    have hm := hms m (by simp)
    have ih {s : Nat} (hp : p ∈ cutAt t sep ms s) := ih (fun m hm => hms m (by simp [hm])) hp
    rw [cutAt] at hp
    split at hp
    · rename_i hcut
      rw [Bool.and_eq_true, decide_eq_true_eq] at hcut
      have hlt : p.length < t.length - start := by
        rcases List.mem_cons.1 hp with rfl | hp
        · simp only [slice, List.length_drop, List.length_take]
          omega
        · have := (ih hp).1
          omega
      exact ⟨Nat.le_of_lt hlt, fun _ => hlt⟩
    · rename_i hcut
      refine ⟨(ih hp).1, ?_⟩
      rintro ⟨m', hm', hle, hs⟩
      refine (ih hp).2 ?_
      rcases List.mem_cons.1 hm' with rfl | hm'
      · exact absurd (by simp [hle, hs]) hcut
      · exact ⟨m', hm', hle, hs⟩

/-- A text that is cut comes apart into shorter ones. -/
theorem length_lt_of_mem_splitTopLevel {t sep p : List Char} (hc : containsTopLevel t sep = true)
    (hp : p ∈ splitTopLevel t sep) : p.length < t.length := by
  rw [containsTopLevel, findTopLevel?] at hc
  split at hc
  · cases hc
  · rename_i hsep
    rw [Option.isSome_map, List.find?_isSome] at hc
    obtain ⟨m, hm, hstarts⟩ := hc
    rw [splitTopLevel, if_neg hsep] at hp
    obtain ⟨q, hq, rfl⟩ := List.mem_map.1 (List.mem_filter.1 hp).1
    have hlen : 0 < sep.length := by
      rw [List.length_pos_iff]
      simpa using hsep
    have hlt := (length_of_mem_cutAt (fun m hm => by simpa using index_lt_of_mem_marksFrom hm) hlen
      hq).2 ⟨m, hm, Nat.zero_le _, hstarts⟩
    have := length_trim_le q
    omega

theorem cutAt_of_not_starts {t sep : List Char} {ms : List Mark} (h : ∀ m ∈ ms, m.starts sep = false)
    (start : Nat) : cutAt t sep ms start = [t.drop start] := by
  induction ms with
  | nil => rfl
  | cons m ms ih =>
    rw [cutAt, h m (by simp), Bool.and_false, if_neg Bool.false_ne_true,
      ih fun m hm => h m (by simp [hm])]

/-- Without the separator all the text is one piece. -/
theorem splitTopLevel_of_not_contains {t sep : List Char} (hsep : sep ≠ [])
    (h : containsTopLevel t sep = false) : splitTopLevel t sep = [trim t].filter (!·.isEmpty) := by
  have hempty : sep.isEmpty = false := by simpa using hsep
  have hmarks : ∀ m ∈ marks t, m.starts sep = false := by
    rw [containsTopLevel, findTopLevel?, hempty, if_neg Bool.false_ne_true, Option.isSome_map,
      Option.isSome_eq_false_iff, Option.isNone_iff_eq_none, List.find?_eq_none] at h
    exact fun m hm => by simpa using h m hm
  rw [splitTopLevel, hempty, if_neg Bool.false_ne_true, cutAt_of_not_starts hmarks]
  rfl

theorem ne_nil_of_findTopLevel? {t needle : List Char} {i : Nat} (h : findTopLevel? t needle = some i) :
    t ≠ [] := by
  rintro rfl
  rw [findTopLevel?] at h
  split at h <;> cases h

theorem length_stripOuterParens_le (t : List Char) : (stripOuterParens t).length ≤ t.length :=
  (infix_stripOuterParens t).length_le

theorem length_le_of_balancedInner? {t inner : List Char} {start : Nat}
    (h : balancedInner? t start = some inner) : inner.length ≤ t.length := by
  obtain ⟨stop, -, rfl⟩ := Option.map_eq_some_iff.1 h
  have := length_slice_le t (start + 1) stop
  omega

end Code

namespace Content

/-! ### What a result is read from -/

/-- Another content of `u` alone makes another result. -/
def DependsOn (f : Reader → Reviewed α) (u : List Char) : Prop :=
  ∃ read read' : Reader, (∀ v, v ≠ u → read v = read' v) ∧ f read ≠ f read'

/-- The reader is asked for each of the texts, whatever it answers, and for no other. Items for review
that come with an answer are kept. -/
structure Asks (f : Reader → Reviewed α) (texts : List (List Char)) : Prop where
  congr : ∀ read read' : Reader, (∀ u ∈ texts, read u = read' u) → f read = f read'
  kept : ∀ read : Reader, ∀ u ∈ texts, (read u).review.length ≤ (f read).review.length

variable {α β : Type} {us vs : List (List Char)}

theorem Asks.pure (x : Reviewed α) : Asks (fun _ => x) [] where
  congr _ _ _ := rfl
  kept _ u hu := by cases hu

theorem Asks.read (u : List Char) : Asks (fun read => read u) [u] where
  congr _ _ h := h u (by simp)
  kept read v hv := by rw [List.mem_singleton.1 hv]

/-- Two steps ask for what the first and the second ask for. -/
theorem Asks.bind {f : Reader → Reviewed α} {g : α → Reader → Reviewed β} (hf : Asks f us)
    (hg : ∀ a, Asks (g a) vs) : Asks (fun read => f read >>= fun a => g a read) (us ++ vs) where
  congr read read' h := by
    have first : f read = f read' := hf.congr _ _ fun u hu => h u (by simp [hu])
    have second (a : α) : g a read = g a read' := (hg a).congr _ _ fun u hu => h u (by simp [hu])
    simp only [first, second]
  kept read u hu := by
    rw [Reviewed.review_bind, List.length_append]
    rcases List.mem_append.1 hu with hu | hu
    · exact Nat.le_add_right_of_le (hf.kept read u hu)
    · exact Nat.le_add_left_of_le ((hg _).kept read u hu)

theorem Asks.map {f : Reader → Reviewed α} (hf : Asks f us) (k : α → Reviewed β) :
    Asks (fun read => f read >>= k) us := by
  simpa using hf.bind fun a => Asks.pure (k a)

/-- A row of steps asks for what each of them asks for. -/
theorem Asks.foldlM {σ ι : Type} {step : Reader → σ → ι → Reviewed σ} {texts : ι → List (List Char)}
    (h : ∀ s i, Asks (fun read => step read s i) (texts i)) (is : List ι) (s : σ) :
    Asks (fun read => is.foldlM (step read) s) (is.flatMap texts) := by
  induction is generalizing s with
  | nil => exact .pure _
  | cons i is ih =>
    simp only [List.foldlM_cons, List.flatMap_cons]
    exact (h s i).bind ih

/-- The texts asked for are those the result depends on. -/
theorem Asks.dependsOn_iff {f : Reader → Reviewed α} (h : Asks f us) {u : List Char} :
    DependsOn f u ↔ u ∈ us := by
  constructor
  · rintro ⟨read, read', hsame, hne⟩
    by_contra hu
    exact hne (h.congr _ _ fun v hv => hsame v fun he => hu (he ▸ hv))
  · intro hu
    -- An answer with more items than the result has without it.
    let silent : Reader := fun _ => ⟨[], []⟩
    let items := List.replicate ((f silent).review.length + 1) (⟨"", .low, none, none, none⟩ : ReviewItem)
    let loud : Reader := fun v => if v = u then ⟨[], items⟩ else silent v
    refine ⟨silent, loud, fun v hv => (if_neg hv).symm, fun he => ?_⟩
    have hlen := h.kept loud u hu
    have hloud : (loud u).review.length = (f silent).review.length + 1 := by simp [loud, items]
    rw [hloud, he] at hlen
    omega

/-! ### Texts of markup -/

mutual

def elementTexts : Element → List (List Char)
  | ⟨_, _, _, nodes, _, _, _⟩ => nodesTexts nodes

def nodesTexts : List Node → List (List Char)
  | [] => []
  | n :: rest => nodeTexts n ++ nodesTexts rest

def nodeTexts : Node → List (List Char)
  | .text _ => []
  | .element e => elementTexts e
  | .expression code => [code.toList]

end

mutual

theorem asks_ofElement : ∀ e : Element, Asks (fun read => ofElement read e) (elementTexts e)
  | ⟨name, props, spreads, nodes, _, _, _⟩ => by
    simp only [ofElement, elementTexts]
    exact (asks_ofNodes nodes).map _

theorem asks_ofNodes : ∀ nodes : List Node, Asks (fun read => ofNodes read nodes) (nodesTexts nodes)
  | [] => .pure _
  | n :: rest => by
    simp only [ofNodes, nodesTexts]
    exact (asks_ofNode n).bind fun first => (asks_ofNodes rest).map _

theorem asks_ofNode : ∀ n : Node, Asks (fun read => ofNode read n) (nodeTexts n)
  | .text t => .pure _
  | .element e => by simpa only [ofNode, nodeTexts] using asks_ofElement e
  | .expression code => by simpa only [ofNode, nodeTexts] using Asks.read code.toList

end

/-! ### Texts of an expression -/

/-- What an operand is read from: the code in an element, or the operand itself. -/
def operandTexts (t : List Char) : List (List Char) :=
  let t := stripOuterParens t
  if isNothing t then [] else
    match wholeElement? t with
    | some e => elementTexts e
    | none => [t]

def bodyTexts (body : List Char) : List (List Char) :=
  match wholeElement? body with
  | some e => elementTexts e
  | none => [body]

def nestedTexts (t : List Char) : List (List Char) :=
  let t := stripOuterParens t
  if t.isEmpty then [] else
  match splitTernary? t with
  | some (_, yes, no) => operandTexts yes ++ operandTexts no
  | none =>
  if containsTopLevel t "||".toList || containsTopLevel t "??".toList then
    (fallbackOperands t).flatMap operandTexts
  else if containsTopLevel t "&&".toList then
    ((splitTopLevel t "&&".toList).getLast?.map operandTexts).getD []
  else if containsTopLevel t ".map(".toList then
    ((loopHead? t).map fun found => bodyTexts found.2).getD []
  else []

theorem asks_ofOperand (t : List Char) : Asks (fun read => ofOperand read t) (operandTexts t) := by
  simp only [ofOperand, operandTexts]
  split
  · exact .pure _
  · cases wholeElement? (stripOuterParens t) with
    | none => exact .read _
    | some e => exact asks_ofElement e

theorem asks_ofOperands (ts : List (List Char)) :
    Asks (fun read => ofOperands read ts) (ts.flatMap operandTexts) := by
  induction ts with
  | nil => exact .pure _
  | cons t ts ih =>
    simp only [ofOperands, List.flatMap_cons]
    exact (asks_ofOperand t).bind fun body => ih.map _

theorem asks_ofTernary (condition yes no : List Char) :
    Asks (fun read => ofTernary read condition yes no) (operandTexts yes ++ operandTexts no) :=
  (asks_ofOperand yes).bind fun _ => (asks_ofOperand no).map _

theorem asks_ofFallback (t : List Char) :
    Asks (fun read => ofFallback read t) ((fallbackOperands t).flatMap operandTexts) :=
  (asks_ofOperands (fallbackOperands t)).map _

theorem asks_ofConjunction (t : List Char) : Asks (fun read => ofConjunction read t)
    (((splitTopLevel t "&&".toList).getLast?.map operandTexts).getD []) := by
  simp only [ofConjunction]
  cases (splitTopLevel t "&&".toList).getLast? with
  | none => exact .pure _
  | some last => exact (asks_ofOperand last).map _

theorem asks_ofLoop? {t body : List Char} {head : Loop} (h : loopHead? t = some (head, body)) :
    ∃ loop : Reader → Reviewed Content,
      (∀ read, ofLoop? read t = some (loop read)) ∧ Asks loop (bodyTexts body) := by
  refine ⟨_, fun read => by rw [ofLoop?, h, Option.map_some], ?_⟩
  dsimp only
  rw [bodyTexts]
  cases wholeElement? body with
  | none => exact (Asks.read body).map _
  | some e => exact (asks_ofElement e).map _

/-- One step asks for the nested texts and for nothing else. -/
theorem asks_ofExpressionStep (t : List Char) :
    Asks (fun read => ofExpressionStep read t) (nestedTexts t) := by
  simp only [ofExpressionStep, nestedTexts]
  generalize stripOuterParens t = t
  split
  · exact .pure _
  cases splitTernary? t with
  | some parts => exact (asks_ofTernary parts.1 parts.2.1 parts.2.2).map _
  | none =>
    dsimp only
    split
    · exact (asks_ofFallback t).map _
    split
    · exact asks_ofConjunction t
    split
    · cases h : loopHead? t with
      | none =>
        simp only [ofLoop?, h, Option.map_none]
        exact .pure _
      | some found =>
        obtain ⟨loop, hloop, hasks⟩ := asks_ofLoop? h
        simp only [hloop]
        exact hasks.map _
    · exact .pure _

/-! ### Code in markup is shorter than the markup -/

theorem mem_nodesTexts {nodes : List Node} {u : List Char} :
    u ∈ nodesTexts nodes ↔ ∃ n ∈ nodes, u ∈ nodeTexts n := by
  induction nodes with
  | nil => simp [nodesTexts]
  | cons n rest ih => simp [nodesTexts, ih]

/-- Text alone adds nothing to read. -/
theorem mem_withText {read : List Char} {nodes : List Node} {n : Node} (h : n ∈ withText read nodes) :
    n ∈ nodes ∨ nodeTexts n = [] := by
  rw [withText] at h
  split at h
  · exact .inl h
  · rcases List.mem_cons.1 h with rfl | h
    · exact .inr rfl
    · exact .inl h

/-- All that the node is read from is shorter than so many characters. -/
def Below (limit : Nat) (n : Node) : Prop := ∀ u ∈ nodeTexts n, u.length < limit

theorem Below.mono {a b : Nat} {n : Node} (h : Below a n) (hab : a ≤ b) : Below b n :=
  fun u hu => Nat.lt_of_lt_of_le (h u hu) hab

/-- A parsed element leaves a shorter rest, and so does a list of children. The code in them is shorter
than the text they were parsed from. -/
theorem below_parsed (fuel : Nat) :
    (∀ {pos : Nat} {t rest : List Char} {e : Element}, elementAt? fuel pos t = some (e, rest) →
      rest.length < t.length ∧ Below t.length (.element e)) ∧
    ∀ {pos stop : Nat} {read t rest : List Char} {nodes found : List Node},
      childrenAt? fuel pos read nodes t = some (found, stop, rest) →
        rest.length ≤ t.length ∧ ∀ n ∈ found, n ∈ nodes ∨ Below t.length n := by
  induction fuel with
  | zero =>
    constructor
    · intro pos t rest e h
      cases h
    · intro pos stop read t rest nodes found h
      cases h
  | succ fuel ih =>
    obtain ⟨ihElement, ihChildren⟩ := ih
    constructor
    · intro pos t rest e h
      rw [elementAt?] at h
      obtain ⟨⟨tag, after⟩, htag, h⟩ := Option.bind_eq_some_iff.1 h
      have hshort : after.length < t.length := Nat.lt_of_succ_lt (length_of_openingTag? htag)
      dsimp only at h
      split at h
      · cases h
        exact ⟨hshort, fun u hu => by simp [nodeTexts, elementTexts, nodesTexts] at hu⟩
      · obtain ⟨⟨found, stop, rest'⟩, hchildren, h⟩ := Option.bind_eq_some_iff.1 h
        cases h
        obtain ⟨hrest, hfound⟩ := ihChildren hchildren
        refine ⟨Nat.lt_of_le_of_lt hrest hshort, fun u hu => ?_⟩
        obtain ⟨n, hn, hu⟩ := mem_nodesTexts.1 hu
        rcases hfound n (List.mem_reverse.1 hn) with hn | hn
        · cases hn
        · exact Nat.lt_trans (hn u hu) hshort
    · intro pos stop read t rest nodes found h
      cases t with
      | nil => cases h
      | cons c t =>
        have htext {n : Node} {limit : Nat} (hn : n ∈ withText read nodes) :
            n ∈ nodes ∨ Below limit n :=
          (mem_withText hn).imp_right fun hn u hu => by rw [hn] at hu; cases hu
        rw [childrenAt?] at h
        dsimp only at h
        split at h
        · obtain ⟨i, -, h⟩ := Option.map_eq_some_iff.1 h
          cases h
          exact ⟨by rw [List.length_drop]; omega, fun n hn => htext hn⟩
        split at h
        · rename_i e after hchild
          have hchild : elementAt? fuel pos (c :: t) = some (e, after) := by
            split at hchild
            · exact hchild
            · cases hchild
          obtain ⟨hshort, hbelow⟩ := ihElement hchild
          obtain ⟨hrest, hfound⟩ := ihChildren h
          refine ⟨by omega, fun n hn => ?_⟩
          rcases hfound n hn with hn | hn
          · rcases List.mem_cons.1 hn with rfl | hn
            · exact .inr hbelow
            · exact htext hn
          · exact .inr (hn.mono (by omega))
        split at h
        · split at h
          · cases h
          rename_i i _
          obtain ⟨hrest, hfound⟩ := ihChildren h
          rw [List.length_drop] at hrest hfound
          refine ⟨by omega, fun n hn => ?_⟩
          rcases hfound n hn with hn | hn
          · split at hn
            · exact htext hn
            · rcases List.mem_cons.1 hn with rfl | hn
              · refine .inr fun u hu => ?_
                have hslice := length_slice_le (c :: t) 1 i
                have htrim := length_trim_le (slice (c :: t) 1 i)
                simp only [nodeTexts, String.toList_ofList, List.mem_singleton] at hu
                rw [List.length_cons] at hslice ⊢
                subst hu
                omega
              · exact htext hn
          · exact .inr (hn.mono (by omega))
        · obtain ⟨hrest, hfound⟩ := ihChildren h
          rw [List.length_cons]
          exact ⟨by omega, fun n hn => (hfound n hn).imp_right fun hn => hn.mono (by omega)⟩

/-- Code in an element is shorter than the text the element stands in. -/
theorem length_lt_of_mem_elementTexts {t : List Char} {e : Element} {start : Nat}
    (h : parseElement? t start = some e) {u : List Char} (hu : u ∈ elementTexts e) :
    u.length < t.length := by
  rw [parseElement?] at h
  obtain ⟨⟨e', rest⟩, hparsed, he⟩ := Option.map_eq_some_iff.1 h
  cases he
  have hlt := ((below_parsed _).1 hparsed).2 u hu
  rw [List.length_drop] at hlt
  omega

/-! ### Nested texts are shorter -/

theorem length_le_of_returned? {block t : List Char} (h : returned? block = some t) :
    t.length ≤ block.length := by
  obtain ⟨m, -, h⟩ := Option.bind_eq_some_iff.1 h
  cases h
  refine Nat.le_trans (length_trim_le _) (Nat.le_trans (length_slice_le _ _ _) (Nat.sub_le _ _))

/-- The rendered body stands behind `.map(`. -/
theorem length_lt_of_loopHead? {t body : List Char} {head : Loop}
    (h : loopHead? t = some (head, body)) : body.length < t.length := by
  rw [loopHead?] at h
  obtain ⟨i, hi, h⟩ := Option.bind_eq_some_iff.1 h
  obtain ⟨close, -, h⟩ := Option.bind_eq_some_iff.1 h
  split at h
  · cases h
  obtain ⟨arrow, -, h⟩ := Option.bind_eq_some_iff.1 h
  obtain ⟨first, -, h⟩ := Option.bind_eq_some_iff.1 h
  generalize hcallback : slice t (i + 4 + 1) close = callback at h
  have hlen : callback.length < t.length := by
    have hpos := List.length_pos_of_ne_nil (ne_nil_of_findTopLevel? hi)
    have hslice := length_slice_le t (i + 4 + 1) close
    rw [hcallback] at hslice
    omega
  -- The body itself, or what its block returns.
  have hbody : ∃ inner : List Char, inner.length ≤ callback.length ∧ stripOuterParens inner = body := by
    have hrest := length_trim_le (callback.drop (arrow + 2))
    generalize trim (callback.drop (arrow + 2)) = rest at h hrest
    rw [List.length_drop] at hrest
    have hreturned {inner : List Char} (h : (balancedInner? rest 0).bind returned? = some inner) :
        inner.length ≤ callback.length := by
      obtain ⟨block, hblock, h⟩ := Option.bind_eq_some_iff.1 h
      have := length_le_of_balancedInner? hblock
      have := length_le_of_returned? h
      omega
    -- The first parameter, taken apart or not, plays no part in the body.
    have hparam : ∃ head' : Loop, (if (rest.head? == some '\x7b') = true then
        ((balancedInner? rest 0).bind returned?).bind fun b => some (head', stripOuterParens b)
        else some (head', stripOuterParens rest)) = some (head, body) := by
      dsimp only at h
      split at h
      · obtain ⟨names, -, h⟩ := Option.bind_eq_some_iff.1 h
        exact ⟨_, h⟩
      · exact ⟨_, h⟩
    obtain ⟨head', h⟩ := hparam
    split at h
    · obtain ⟨inner, hinner, h⟩ := Option.bind_eq_some_iff.1 h
      cases h
      exact ⟨inner, hreturned hinner, rfl⟩
    · cases h
      exact ⟨rest, by omega, rfl⟩
  obtain ⟨inner, hinner, rfl⟩ := hbody
  have := length_stripOuterParens_le inner
  omega

theorem mem_getD_map {α β : Type} {o : Option α} {f : α → List β} {b : β} (h : b ∈ (o.map f).getD []) :
    ∃ a, o = some a ∧ b ∈ f a := by
  cases o with
  | none => cases h
  | some a => exact ⟨a, rfl, h⟩

theorem length_lt_of_mem_wholeElement {t : List Char} {e : Element} (h : wholeElement? t = some e)
    {u : List Char} (hu : u ∈ elementTexts e) : u.length < t.length := by
  obtain ⟨e', hparsed, h⟩ := Option.bind_eq_some_iff.1 h
  split at h
  · cases h
    exact length_lt_of_mem_elementTexts hparsed hu
  · cases h

/-- An operand asks for no text longer than itself. -/
theorem length_le_of_mem_operandTexts {t u : List Char} (h : u ∈ operandTexts t) :
    u.length ≤ t.length := by
  have hstrip := length_stripOuterParens_le t
  rw [operandTexts] at h
  split at h
  · cases h
  split at h
  · rename_i e he
    exact Nat.le_trans (Nat.le_of_lt (length_lt_of_mem_wholeElement he h)) hstrip
  · exact List.mem_singleton.1 h ▸ hstrip

theorem length_le_of_mem_bodyTexts {t u : List Char} (h : u ∈ bodyTexts t) : u.length ≤ t.length := by
  rw [bodyTexts] at h
  split at h
  · rename_i e he
    exact Nat.le_of_lt (length_lt_of_mem_wholeElement he h)
  · exact List.mem_singleton.1 h ▸ Nat.le_refl _

/-- An alternative with one operand: no conditional, and `||` outside brackets with one piece that is
not empty. -/
def LoneOperand (t : List Char) : Prop :=
  splitTernary? (stripOuterParens t) = none ∧
    containsTopLevel (stripOuterParens t) "||".toList = true ∧
    (splitTopLevel (stripOuterParens t) "||".toList).length = 1

instance (t : List Char) : Decidable (LoneOperand t) := by
  unfold LoneOperand
  infer_instance

/-- The operands of an alternative are pieces of it, and shorter ones unless the first cut leaves a lone
operand. -/
theorem length_of_mem_fallbackOperands {t o : List Char} (ho : o ∈ fallbackOperands t) :
    o.length ≤ t.length ∧
      ((containsTopLevel t "||".toList || containsTopLevel t "??".toList) = true →
        (containsTopLevel t "||".toList = true → (splitTopLevel t "||".toList).length ≠ 1) →
        o.length < t.length) := by
  rw [fallbackOperands] at ho
  split at ho
  · rename_i hone
    refine ⟨length_le_of_mem_splitTopLevel ho, fun hc hlone => ?_⟩
    rcases Bool.or_eq_true_iff.1 hc with hc | hc
    · exact absurd (by simpa using hone) (hlone hc)
    · exact length_lt_of_mem_splitTopLevel hc ho
  · rename_i hone
    refine ⟨length_le_of_mem_splitTopLevel ho, fun _ _ => ?_⟩
    cases hc : containsTopLevel t "||".toList with
    | true => exact length_lt_of_mem_splitTopLevel hc ho
    | false =>
      rw [splitTopLevel_of_not_contains (by decide) hc] at hone ho
      have hlen := List.length_filter_le (fun p : List Char => !p.isEmpty) [trim t]
      have hpos := List.length_pos_of_mem ho
      have hne : ([trim t].filter fun p => !p.isEmpty).length ≠ 1 := by simpa using hone
      rw [List.length_singleton] at hlen
      omega

/-- Every nested text is shorter than the expression, but for a lone operand, where none is longer. -/
theorem length_of_mem_nestedTexts {t u : List Char} (h : u ∈ nestedTexts t) :
    u.length ≤ t.length ∧ (u.length < t.length ∨ LoneOperand t) := by
  suffices hs : u.length < (stripOuterParens t).length ∨
      u.length ≤ (stripOuterParens t).length ∧ LoneOperand t by
    have hstrip := length_stripOuterParens_le t
    rcases hs with hlt | ⟨hle, hlone⟩
    · exact ⟨by omega, .inl (by omega)⟩
    · exact ⟨by omega, .inr hlone⟩
  rw [nestedTexts] at h
  rw [LoneOperand]
  generalize stripOuterParens t = s at h ⊢
  split at h
  · cases h
  split at h
  · rename_i condition yes no hparts
    obtain ⟨-, hyes, hno⟩ := length_lt_of_splitTernary? hparts
    rcases List.mem_append.1 h with h | h
    · exact .inl (Nat.lt_of_le_of_lt (length_le_of_mem_operandTexts h) hyes)
    · exact .inl (Nat.lt_of_le_of_lt (length_le_of_mem_operandTexts h) hno)
  rename_i hparts
  split at h
  · rename_i hc
    obtain ⟨o, ho, h⟩ := List.mem_flatMap.1 h
    have hle := length_le_of_mem_operandTexts h
    obtain ⟨hole, holt⟩ := length_of_mem_fallbackOperands ho
    by_cases hlone : containsTopLevel s "||".toList = true ∧ (splitTopLevel s "||".toList).length = 1
    · exact .inr ⟨Nat.le_trans hle hole, hparts, hlone⟩
    · exact .inl (Nat.lt_of_le_of_lt hle (holt hc fun hor hone => hlone ⟨hor, hone⟩))
  split at h
  · rename_i hc
    obtain ⟨texts, htexts, h⟩ := mem_getD_map h
    exact .inl (Nat.lt_of_le_of_lt (length_le_of_mem_operandTexts h)
      (length_lt_of_mem_splitTopLevel hc (List.mem_of_getLast? htexts)))
  split at h
  · obtain ⟨found, hfound, h⟩ := mem_getD_map h
    exact .inl (Nat.lt_of_le_of_lt (length_le_of_mem_bodyTexts h) (length_lt_of_loopHead? hfound))
  · cases h

end Content

end JsxToJinja
