import JsxToJinja.Proofs.Code.Literals
import JsxToJinja.Proofs.Content.QualifiedText

/-! Fields of a loop item that code uses by name. Outside templates each free occurrence is put behind
the item and nothing else changes, but a name in an interpolation stays, so the code means what it
meant just where no interpolation uses one of the names. -/
namespace JsxToJinja.Qualified
open JsxToJinja.Text JsxToJinja.Code

/-! ### Code as it is written -/

structure Identifier where
  chars : List Char
  valid : isIdentifier chars = true

namespace Identifier

def isIn (x : Identifier) (names : List String) : Bool := names.contains (String.ofList x.chars)

end Identifier

/-- A number, with a fraction or without one. -/
structure Numeral where
  first : Char
  more : List Char
  digit : first.isDigit = true
  goesOn : ∀ c ∈ more, joinsWord c = true

/-- A text in single or double quotes. -/
structure Quotation where
  quote : Char
  body : List Char
  simple : quote = '\x27' ∨ quote = '\x22'
  closes : LiteralBody quote body

/-- Characters of operators other than words. -/
def signs : List Char := "+-*/%<>=!&|^~?".toList

/-- Signs, or a word with a blank on either side of it. -/
structure Operator where
  before : Gap
  chars : List Char
  after : Gap
  shape : (chars ≠ [] ∧ ∀ c ∈ chars, c ∈ signs) ∨
    (isIdentifier chars = true ∧ before.chars ≠ [] ∧ after.chars ≠ [])

/-- Signs, or a word with a blank behind it. -/
structure Prefix where
  chars : List Char
  after : Gap
  shape : (∀ c ∈ chars, c ∈ signs) ∨ (isIdentifier chars = true ∧ after.chars ≠ [])

/-- Signs behind what they belong to. -/
structure Signs where
  chars : List Char
  shape : ∀ c ∈ chars, c ∈ signs

/-- Blanks on both sides of a sign. -/
structure Around where
  before : Gap
  after : Gap

inductive Kind where
  | expr
  | args
  | parts
deriving DecidableEq

/-- Expressions, arguments of a call, and parts of a template, with the blanks between them. -/
inductive Phrase : Kind → Type where
  | name (x : Identifier) : Phrase .expr
  | number (n : Numeral) : Phrase .expr
  | quoted (q : Quotation) : Phrase .expr
  | template (ps : Phrase .parts) : Phrase .expr
  | member (e : Phrase .expr) (before : Gap) (link : Bool) (after : Gap) (x : Identifier) : Phrase .expr
  | index (e : Phrase .expr) (before : Gap) (link : Bool) (around : Around) (i : Phrase .expr) :
    Phrase .expr
  | call (f : Phrase .expr) (before : Gap) (link : Bool) (as : Phrase .args) : Phrase .expr
  | unary (op : Prefix) (e : Phrase .expr) : Phrase .expr
  | marked (e : Phrase .expr) (before : Gap) (op : Signs) : Phrase .expr
  | binary (a : Phrase .expr) (op : Operator) (b : Phrase .expr) : Phrase .expr
  | cond (c : Phrase .expr) (question : Around) (a : Phrase .expr) (colon : Around)
      (b : Phrase .expr) : Phrase .expr
  | paren (around : Around) (e : Phrase .expr) : Phrase .expr
  | noArgs (gap : Gap) : Phrase .args
  | lastArg (around : Around) (e : Phrase .expr) : Phrase .args
  | arg (around : Around) (e : Phrase .expr) (more : Phrase .args) : Phrase .args
  | lastText (t : List Char) : Phrase .parts
  | hole (t : List Char) (around : Around) (e : Phrase .expr) (more : Phrase .parts) : Phrase .parts

namespace Phrase

def chain (link : Bool) : List Char := if link then ['?', '.'] else []

def text : Phrase k → List Char
  | name x => x.chars
  | number n => n.first :: n.more
  | quoted q => q.quote :: (q.body ++ [q.quote])
  | template ps => '\x60' :: (ps.text ++ ['\x60'])
  | member e before link after x =>
    e.text ++ ((before.chars ++ if link then ['?'] else []) ++ '.' :: (after.chars ++ x.chars))
  | index e before link around i =>
    (e.text ++ (before.chars ++ chain link)) ++
      (('[' :: around.before.chars) ++ (i.text ++ (around.after.chars ++ [']'])))
  | call f before link as =>
    (f.text ++ (before.chars ++ chain link)) ++ (['('] ++ (as.text ++ [')']))
  | unary op e => op.chars ++ (op.after.chars ++ e.text)
  | marked e before op => e.text ++ (before.chars ++ op.chars)
  | binary a op b => a.text ++ (op.before.chars ++ (op.chars ++ (op.after.chars ++ b.text)))
  | cond c question a colon b => c.text ++ ((question.before.chars ++ '?' :: question.after.chars) ++
      (a.text ++ ((colon.before.chars ++ ':' :: colon.after.chars) ++ b.text)))
  | paren around e => ('(' :: around.before.chars) ++ (e.text ++ (around.after.chars ++ [')']))
  | noArgs gap => gap.chars
  | lastArg around e => around.before.chars ++ (e.text ++ around.after.chars)
  | arg around e more =>
    around.before.chars ++ (e.text ++ ((around.after.chars ++ [',']) ++ more.text))
  | lastText t => t
  | hole t around e more =>
    t ++ "$\x7b".toList ++ around.before.chars ++ e.text ++ around.after.chars ++ '\x7d' :: more.text

/-- Expressions put for the free names, one way outside templates and another way in their
interpolations. The name of a member is not free. -/
def subst : (Identifier → Phrase .expr) → (Identifier → Phrase .expr) → Phrase k → Phrase k
  | f, _, name x => f x
  | _, _, number n => number n
  | _, _, quoted q => quoted q
  | _, g, template ps => template (ps.subst g g)
  | f, g, member e before link after x => member (e.subst f g) before link after x
  | f, g, index e before link around i => index (e.subst f g) before link around (i.subst f g)
  | f, g, call e before link as => call (e.subst f g) before link (as.subst f g)
  | f, g, unary op e => unary op (e.subst f g)
  | f, g, marked e before op => marked (e.subst f g) before op
  | f, g, binary a op b => binary (a.subst f g) op (b.subst f g)
  | f, g, cond c question a colon b =>
    cond (c.subst f g) question (a.subst f g) colon (b.subst f g)
  | f, g, paren around e => paren around (e.subst f g)
  | _, _, noArgs gap => noArgs gap
  | f, g, lastArg around e => lastArg around (e.subst f g)
  | f, g, arg around e more => arg around (e.subst f g) (more.subst f g)
  | _, _, lastText t => lastText t
  | f, g, hole t around e more => hole t around (e.subst f g) (more.subst f g)

def uses (p : Identifier → Bool) : Phrase k → Nat
  | name x => if p x then 1 else 0
  | number _ => 0
  | quoted _ => 0
  | template ps => ps.uses p
  | member e _ _ _ _ => e.uses p
  | index e _ _ _ i => e.uses p + i.uses p
  | call f _ _ as => f.uses p + as.uses p
  | unary _ e => e.uses p
  | marked e _ _ => e.uses p
  | binary a _ b => a.uses p + b.uses p
  | cond c _ a _ b => c.uses p + a.uses p + b.uses p
  | paren _ e => e.uses p
  | noArgs _ => 0
  | lastArg _ e => e.uses p
  | arg _ e more => e.uses p + more.uses p
  | lastText _ => 0
  | hole _ _ e more => e.uses p + more.uses p

def interpolated (p : Identifier → Bool) : Phrase k → Nat
  | name _ => 0
  | number _ => 0
  | quoted _ => 0
  | template ps => ps.uses p
  | member e _ _ _ _ => e.interpolated p
  | index e _ _ _ i => e.interpolated p + i.interpolated p
  | call f _ _ as => f.interpolated p + as.interpolated p
  | unary _ e => e.interpolated p
  | marked e _ _ => e.interpolated p
  | binary a _ b => a.interpolated p + b.interpolated p
  | cond c _ a _ b => c.interpolated p + a.interpolated p + b.interpolated p
  | paren _ e => e.interpolated p
  | noArgs _ => 0
  | lastArg _ e => e.interpolated p
  | arg _ e more => e.interpolated p + more.interpolated p
  | lastText _ => 0
  | hole _ _ e more => e.interpolated p + more.interpolated p

def field (names : List String) (item x : Identifier) : Phrase .expr :=
  if x.isIn names then member (name item) .none false .none x else name x

/-- The names are put behind the item wherever they stand free. -/
def qualified (names : List String) (item : Identifier) (e : Phrase k) : Phrase k :=
  e.subst (field names item) (field names item)

/-- The names are put behind the item where they stand free outside templates. -/
def qualifiedOutside (names : List String) (item : Identifier) (e : Phrase k) : Phrase k :=
  e.subst (field names item) name

/-- An operator that is a word is none of the names. -/
def Free (names : List String) (op : List Char) : Prop :=
  isIdentifier op = true → names.contains (String.ofList op) = false

/-- No template holds another one, no name of the list stands behind a dot and a blank, and none is an
operator. -/
def Fits (names : List String) : Phrase k → Prop
  | name _ => True
  | number _ => True
  | quoted _ => True
  | template ps => LiteralBody '\x60' ps.text
  | member e _ _ after x => e.Fits names ∧ (after.chars = [] ∨ x.isIn names = false)
  | index e _ _ _ i => e.Fits names ∧ i.Fits names
  | call f _ _ as => f.Fits names ∧ as.Fits names
  | unary op e => Free names op.chars ∧ e.Fits names
  | marked e _ _ => e.Fits names
  | binary a op b => a.Fits names ∧ Free names op.chars ∧ b.Fits names
  | cond c _ a _ b => c.Fits names ∧ a.Fits names ∧ b.Fits names
  | paren _ e => e.Fits names
  | noArgs _ => True
  | lastArg _ e => e.Fits names
  | arg _ e more => e.Fits names ∧ more.Fits names
  | lastText _ => True
  | hole _ _ e more => e.Fits names ∧ more.Fits names

/-! ### Substitution -/

attribute [local simp] subst uses interpolated

theorem subst_name (e : Phrase k) : e.subst name name = e := by
  induction e <;> simp [*]

variable {names : List String} {item : Identifier}

theorem text_field (x : Identifier) :
    (field names item x).text = qualifiedName names item.chars x.chars := by
  rw [field, qualifiedName, Identifier.isIn]
  split
  · simp [text, Gap.none]
  · rfl

/-! ### Writing -/

theorem isSpace_gap (g : Gap) : IsSpace g.chars := by
  intro c hc
  have hblank := g.blank c hc
  have hquote : isQuote c = false := by
    rw [← Bool.not_eq_true]
    intro hq
    simp [not_blank_of_isQuote hq] at hblank
  have hname : isIdentifierChar c = false := by
    rw [← Bool.not_eq_true]
    intro hn
    simp [not_blank_of_isIdentifierChar hn] at hblank
  have hdot : c ≠ '.' := by
    rintro rfl
    exact absurd hblank (by decide)
  exact ⟨hquote, by simp [joinsWord, hname, hdot]⟩

theorem isSpace_signs {w : List Char} (h : ∀ c ∈ w, c ∈ signs) : IsSpace w := by
  have hall : ∀ c ∈ signs, isQuote c = false ∧ joinsWord c = false := by decide
  exact fun c hc => hall c (h c hc)

/-- A sign between gaps. -/
theorem isSpace_around (g g' : Gap) {c : Char} (hc : isQuote c = false ∧ joinsWord c = false) :
    IsSpace (g.chars ++ c :: g'.chars) := by
  have hsign : IsSpace [c] := fun d hd => List.mem_singleton.1 hd ▸ hc
  exact (isSpace_gap g).append (hsign.append (isSpace_gap g'))

theorem isPlain_chain (g : Gap) (link : Bool) : IsPlain (g.chars ++ chain link) := by
  have hchain : IsPlain (chain link) := by
    cases link with
    | true => exact fun c hc => by revert c; decide
    | false => exact fun c hc => absurd hc List.not_mem_nil
  exact (isSpace_gap g).plain.append hchain

theorem turns_of_free {w : List Char} (hw : isIdentifier w = true) (h : Free names w) :
    Turns names item.chars w w := by
  have hname : Turns names item.chars w (qualifiedName names item.chars w) := .name hw
  rwa [qualifiedName, h hw, if_neg Bool.false_ne_true] at hname

theorem turns_operator {a a' b b' : List Char} (op : Operator) (h : Free names op.chars)
    (ha : Turns names item.chars a a') (hb : Turns names item.chars b b') :
    Turns names item.chars (a ++ (op.before.chars ++ (op.chars ++ (op.after.chars ++ b))))
      (a' ++ (op.before.chars ++ (op.chars ++ (op.after.chars ++ b')))) := by
  rcases op.shape with ⟨hne, hsigns⟩ | ⟨hword, hbefore, hafter⟩
  · have hspace : IsSpace (op.before.chars ++ op.chars ++ op.after.chars) :=
      ((isSpace_gap _).append (isSpace_signs hsigns)).append (isSpace_gap _)
    simpa using ha.between hspace (by simp [hne]) hb
  · exact ha.between (isSpace_gap _) hbefore
      ((turns_of_free hword h).between (isSpace_gap _) hafter hb)

theorem turns_prefix {a a' : List Char} (op : Prefix) (h : Free names op.chars)
    (ha : Turns names item.chars a a') :
    Turns names item.chars (op.chars ++ (op.after.chars ++ a)) (op.chars ++ (op.after.chars ++ a')) := by
  rcases op.shape with hsigns | ⟨hword, hafter⟩
  · exact (ha.after (isSpace_gap _)).after (isSpace_signs hsigns)
  · exact (turns_of_free hword h).between (isSpace_gap _) hafter ha

/-- What is written for the text is the text with the names put behind the item outside templates. -/
theorem turns_text (e : Phrase k) (hk : k ≠ .parts) (h : e.Fits names) :
    Turns names item.chars e.text (e.qualifiedOutside names item).text := by
  rw [qualifiedOutside]
  have hopen {o : Char} (ho : isQuote o = false ∧ joinsWord o = false) (g : Gap) :
      IsSpace (o :: g.chars) := isSpace_around .none g ho
  have hclose {c : Char} (hc : isQuote c = false ∧ joinsWord c = false) (g : Gap) :
      IsPlain (g.chars ++ [c]) := (isSpace_around g .none hc).plain
  induction e with
  | name x =>
    rw [subst, text_field]
    exact .name x.valid
  | number n => exact .number n.digit n.goesOn
  | quoted q => exact .literal (by rcases q.simple with h | h <;> rw [h] <;> decide) q.closes
  | template ps =>
    rw [subst, subst_name]
    exact .literal (by decide) h
  | member e before link after x ih =>
    have hmark : IsPlain (before.chars ++ if link then ['?'] else []) := by
      cases link with
      | true => exact hclose (by decide) before
      | false => simpa using (isSpace_gap before).plain
    exact (ih (by decide) h.1).member hmark (isSpace_gap after) x.valid h.2
  | index e before link around i ihe ihi =>
    exact ((ihe (by decide) h.1).before (isPlain_chain before link)).between
      (hopen (by decide) around.before) (by simp)
      ((ihi (by decide) h.2).before (hclose (by decide) around.after))
  | call f before link as ihf iha =>
    exact ((ihf (by decide) h.1).before (isPlain_chain before link)).between
      (hopen (by decide) .none) (by simp) ((iha (by decide) h.2).before (hclose (by decide) .none))
  | unary op e ih => exact turns_prefix op h.1 (ih (by decide) h.2)
  | marked e before op ih =>
    exact (ih (by decide) h).before ((isSpace_gap before).append (isSpace_signs op.shape)).plain
  | binary a op b iha ihb =>
    exact turns_operator op h.2.1 (iha (by decide) h.1) (ihb (by decide) h.2.2)
  | cond c question a colon b ihc iha ihb =>
    exact (ihc (by decide) h.1).between (isSpace_around _ _ (by decide)) (by simp)
      ((iha (by decide) h.2.1).between (isSpace_around _ _ (by decide)) (by simp)
        (ihb (by decide) h.2.2))
  | paren around e ih =>
    exact ((ih (by decide) h).before (hclose (by decide) around.after)).after
      (hopen (by decide) around.before)
  | noArgs gap => exact .of_plain (isSpace_gap gap).plain
  | lastArg around e ih =>
    exact ((ih (by decide) h).before (isSpace_gap _).plain).after (isSpace_gap _)
  | arg around e more ihe ihm =>
    exact ((ihe (by decide) h.1).between (isSpace_around around.after .none (by decide)) (by simp)
      (ihm (by decide) h.2)).after (isSpace_gap _)
  | lastText => exact absurd rfl hk
  | hole => exact absurd rfl hk

/-! ### Occurrences in templates -/

/-- The item and its dot are written once for each occurrence. -/
theorem length_text_qualified (names : List String) (item : Identifier) (e : Phrase k) :
    (e.qualified names item).text.length = e.text.length + e.uses (·.isIn names) * (item.chars.length + 1) := by
  rw [qualified]
  induction e with
  | name x =>
    rw [subst, text_field, qualifiedName, uses, text, Identifier.isIn]
    split
    · simp only [List.length_append, List.length_cons]
      omega
    · simp
  | _ =>
    simp only [subst, text, uses, List.length_append, List.length_cons, Nat.add_mul, Nat.zero_mul, *]
    try omega

/-- Occurrences in templates make the difference. -/
theorem length_text_outside (names : List String) (item : Identifier) (e : Phrase k) :
    (e.qualified names item).text.length = (e.qualifiedOutside names item).text.length +
      e.interpolated (·.isIn names) * (item.chars.length + 1) := by
  rw [qualified, qualifiedOutside]
  induction e with
  | template ps =>
    have := length_text_qualified names item ps
    rw [qualified] at this
    simp only [subst, subst_name, text, interpolated, List.length_append, List.length_cons, this]
    omega
  | _ =>
    simp only [subst, text, interpolated, List.length_append, List.length_cons, Nat.add_mul,
      Nat.zero_mul, Nat.add_zero, *]
    try omega

/-- Where none stands in a template, nothing in templates changes. -/
theorem qualified_eq_self (e : Phrase k) (h : e.uses (·.isIn names) = 0) :
    e.qualified names item = e := by
  rw [qualified]
  induction e with
  | name x =>
    have hx : x.isIn names = false := by simpa using h
    rw [subst, field, hx, if_neg Bool.false_ne_true]
  | _ =>
    simp only [uses, Nat.add_eq_zero_iff] at h
    simp [*]

theorem qualified_eq_outside (e : Phrase k) (h : e.interpolated (·.isIn names) = 0) :
    e.qualified names item = e.qualifiedOutside names item := by
  rw [qualified, qualifiedOutside]
  induction e with
  | template ps =>
    have hself : ps.qualified names item = ps := ps.qualified_eq_self h
    rw [qualified] at hself
    rw [subst, subst, subst_name, hself]
  | _ =>
    simp only [interpolated, Nat.add_eq_zero_iff] at h
    simp [*]

/-- Outside templates alone everything is qualified just where no template uses one of the names. -/
theorem text_outside_eq_iff (e : Phrase k) :
    (e.qualifiedOutside names item).text = (e.qualified names item).text ↔
      e.interpolated (·.isIn names) = 0 := by
  constructor
  · intro htext
    have hlen := length_text_outside names item e
    rw [htext, Nat.left_eq_add, Nat.mul_eq_zero] at hlen
    exact hlen.resolve_right (Nat.succ_ne_zero _)
  · intro hnone
    rw [e.qualified_eq_outside hnone]

end Phrase

/-! ### Values -/

/-- What the parts of an expression make of the values of their parts. -/
structure Meaning (V : Type) where
  number : Numeral → V
  quoted : Quotation → V
  template : List (List Char ⊕ V) → V
  /-- The member of a value; a missing value may be let pass, as it may for an index and a call. -/
  member : V → Bool → Identifier → V
  index : V → Bool → V → V
  call : V → Bool → List V → V
  unary : List Char → V → V
  marked : List Char → V → V
  binary : List Char → V → V → V
  cond : V → V → V → V

abbrev Kind.Value (V : Type) : Kind → Type
  | expr => V
  | args => List V
  | parts => List (List Char ⊕ V)

namespace Phrase

variable {V : Type}

def eval (S : Meaning V) (env : Identifier → V) : Phrase k → k.Value V
  | name x => env x
  | number n => S.number n
  | quoted q => S.quoted q
  | template ps => S.template (ps.eval S env)
  | member e _ link _ x => S.member (e.eval S env) link x
  | index e _ link _ i => S.index (e.eval S env) link (i.eval S env)
  | call f _ link as => S.call (f.eval S env) link (as.eval S env)
  | unary op e => S.unary op.chars (e.eval S env)
  | marked e _ op => S.marked op.chars (e.eval S env)
  | binary a op b => S.binary op.chars (a.eval S env) (b.eval S env)
  | cond c _ a _ b => S.cond (c.eval S env) (a.eval S env) (b.eval S env)
  | paren _ e => e.eval S env
  | noArgs _ => ([] : List V)
  | lastArg _ e => ([e.eval S env] : List V)
  | arg _ e more => (e.eval S env :: more.eval S env : List V)
  | lastText t => ([.inl t] : List (List Char ⊕ V))
  | hole t _ e more => (.inl t :: .inr (e.eval S env) :: more.eval S env : List (List Char ⊕ V))

/-- Putting expressions for names is evaluating with the names bound to their values. -/
theorem eval_subst (S : Meaning V) (env : Identifier → V) (f : Identifier → Phrase .expr)
    (e : Phrase k) : (e.subst f f).eval S env = e.eval S fun x => (f x).eval S env := by
  induction e with
  | name x => rfl
  | _ => simp only [subst, eval, *]

def withFields (S : Meaning V) (names : List String) (item : Identifier) (env : Identifier → V)
    (x : Identifier) : V :=
  if x.isIn names then S.member (env item) false x else env x

theorem eval_qualified (S : Meaning V) (names : List String) (item : Identifier)
    (env : Identifier → V) (e : Phrase k) :
    (e.qualified names item).eval S env = e.eval S (withFields S names item env) := by
  have hfield (x : Identifier) : (field names item x).eval S env = withFields S names item env x := by
    rw [field, withFields]
    split <;> rfl
  rw [qualified, eval_subst, funext hfield]

/-- What is written for code is the code with the names put behind the item wherever they stand free
outside templates. Put behind it in interpolations as well, the code means what it meant with each name
bound to the field; what is written is that code just where no interpolation uses one of the names. -/
theorem qualify_leaves_interpolations (names : List String) (item : Identifier) (e : Phrase .expr)
    (h : e.Fits names) :
    let written := qualify names (String.ofList item.chars) (String.ofList e.text)
    written = String.ofList (e.qualifiedOutside names item).text ∧
      (written = String.ofList (e.qualified names item).text ↔
        e.interpolated (·.isIn names) = 0) ∧
      ∀ (V : Type) (S : Meaning V) (env : Identifier → V),
        (e.qualified names item).eval S env = e.eval S (withFields S names item env) := by
  intro written
  have hwritten : written = String.ofList (e.qualifiedOutside names item).text := by
    refine Turns.qualify_eq ?_
    rw [String.toList_ofList]
    exact turns_text e (by decide) h
  refine ⟨hwritten, ?_, fun V S env => eval_qualified S names item env e⟩
  rw [hwritten, String.ofList_inj, text_outside_eq_iff]

def itemName : Identifier := ⟨"item".toList, by decide⟩

def labelName : Identifier := ⟨"label".toList, by decide⟩

def comparedLabels : Phrase .expr :=
  let other : Identifier := ⟨"other".toList, by decide⟩
  let equals : Operator := ⟨.space, "===".toList, .space, .inl (by decide)⟩
  cond (binary (name labelName) equals (member (name other) .none true .none labelName))
    ⟨.space, .space⟩ (quoted ⟨'\x27', "label".toList, .inl rfl, literalBody_of_plain (by decide) (by decide)⟩)
    ⟨.space, .space⟩ (template (hole "a ".toList ⟨.none, .none⟩ (name other) (lastText [])))

/-- The label that stands free outside the template is the one that is written with the item. -/
theorem compared_labels_are_qualified :
    comparedLabels.Fits ["label"] ∧
      qualify ["label"] "item" "label === other?.label ? 'label' : \x60a $\x7bother\x7d\x60" =
        "item.label === other?.label ? 'label' : \x60a $\x7bother\x7d\x60" := by
  have hoperator : Free ["label"] "===".toList := fun h => absurd h (by decide)
  have hfits : comparedLabels.Fits ["label"] :=
    ⟨⟨trivial, hoperator, trivial, .inl rfl⟩, trivial,
      literalBody_of_plain (by decide) (by decide)⟩
  refine ⟨hfits, ?_⟩
  exact (qualify_leaves_interpolations ["label"] itemName comparedLabels hfits).1

/-- A label in an interpolation is written without the item. -/
theorem interpolated_label_stays :
    let e := template (hole "x ".toList ⟨.none, .none⟩ (name labelName) (lastText []))
    e.Fits ["label"] ∧ String.ofList e.text = "\x60x $\x7blabel\x7d\x60" ∧
      String.ofList (e.qualified ["label"] itemName).text = "\x60x $\x7bitem.label\x7d\x60" ∧
      qualify ["label"] "item" "\x60x $\x7blabel\x7d\x60" = "\x60x $\x7blabel\x7d\x60" := by
  intro e
  have hfits : e.Fits ["label"] := literalBody_of_plain (by decide) (by decide)
  exact ⟨hfits, by decide, by decide, by decide⟩

end Phrase

end JsxToJinja.Qualified
