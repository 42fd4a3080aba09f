import JsxToJinja.Content.Extract

/-! Names bound to content in the statements before the markup. -/
namespace JsxToJinja
open JsxToJinja.Text JsxToJinja.Code JsxToJinja.Markup

/-- Content by name, each name once. -/
abbrev Bindings := List (String × Content)

namespace Bindings

def get? (b : Bindings) (name : String) : Option Content :=
  (b.find? (·.1 == name)).map (·.2)

def set (b : Bindings) (name : String) (content : Content) : Bindings :=
  b.filter (·.1 != name) ++ [(name, content)]

/-- A declaration of a variable; group 3 takes part when it has a value. -/
def declaration : Pattern :=
  .wordEdge ++ .anyOf [.lit "const", .lit "let", .lit "var"] ++ .someBlanks ++ .group 2 .identifier ++
    .blanks ++ .opt (.lit ":" ++ .many 1 fun c => c != '=' && c != ';') ++ .opt (.group 3 (.lit "="))

def ifHead : Pattern := .wordEdge ++ .lit "if" ++ .blanks ++ .lit "("

def assignment : Pattern :=
  .group 1 .identifier ++ .blanks ++ .lit "=" ++ .one fun c => c != '=' && c != '>'

def elseHead : Pattern :=
  .start ++ .blanks ++ .lit "else" ++ .wordEdge ++ .blanks

/-- Only code that renders something is worth a binding: markup, iterations, calls, and conditions on
markup. -/
def renders (t : List Char) : Bool :=
  t.head? == some '<' || contains t ".map(".toList ||
    (Content.startsCall t && !contains t "=>".toList) ||
    (((splitTernary? t).isSome || containsTopLevel t "&&".toList) && contains t ['<'])

def valueOf (t : List Char) : Reviewed (Option Content) :=
  let t := stripOuterParens t
  if t.isEmpty || Content.isNothing t || !renders t then pure none else do
    match ← Content.ofOperand Content.ofExpression t with
    | [c] => pure (some c)
    | _ => pure none

/-- The statements, and a copy of them with markup blanked out. -/
structure Preamble where
  text : List Char
  masked : List Char

/-- Bindings so far, and names declared without a value. -/
structure Scope where
  bound : Bindings := []
  declared : List String := []

/-- Only declared names can be assigned content. -/
def Scope.knows (s : Scope) (name : String) : Bool :=
  (s.bound.get? name).isSome || s.declared.contains name

def declare (p : Preamble) (s : Scope) (m : Match) : Reviewed Scope := do
  let name := String.ofList (m.text p.masked 2)
  if (m.span? 3).isNone then pure { s with declared := s.declared ++ [name] }
  else
    let stop := Content.statementStop p.masked m.stop
    match ← valueOf (trim (slice p.text m.stop stop)) with
    | some c => pure { s with bound := s.bound.set name c }
    | none => pure s

def assignmentsOf (p : Preamble) (start stop : Nat) :
    List Match → Reviewed (List (String × Content))
  | [] => pure []
  | m :: rest => do
    let first := start + m.stop - 1
    let last := min (Content.statementStop p.masked first) stop
    let value ← valueOf (trim (slice p.text first last))
    let others ← assignmentsOf p start stop rest
    let name := String.ofList (m.text (slice p.masked start stop) 1)
    pure ((value.map fun c => (name, c)).toList ++ others)

def assignments (p : Preamble) (start stop : Nat) : Reviewed (List (String × Content)) :=
  assignmentsOf p start stop (assignment.findAll (slice p.masked start stop))

def bodyStop (p : Preamble) (start : Nat) : Nat :=
  if startsWith (p.masked.drop start) ['\x7b'] then
    (balancedEnd? p.masked start).getD p.masked.length
  else Content.statementStop p.masked start

/-- Span of the body of an `else` at a position. An `else if` has none. -/
def elseBody? (p : Preamble) (after : Nat) : Option (Nat × Nat) :=
  if p.masked.length < after then none else do
    let m ← elseHead.find? (p.masked.drop after)
    let start := after + m.stop
    if (ifHead.matchAt? (Cursor.ofText (p.masked.drop start))).isSome then none
    else some (start, bodyStop p start)

/-- A new arm goes before the one without a condition. -/
def insertBeforeElse (arm : Branch) : List Branch → List Branch
  | [] => [arm]
  | b :: rest => if b.condition.isNone then arm :: b :: rest else b :: insertBeforeElse arm rest

def underCondition (old : Option Content) (condition : String) (value : Content) : Content :=
  let arm : Branch := .mk (some condition) [value]
  match old with
  | none => .conditional condition [value]
  | some (.branches bs) => .branches (insertBeforeElse arm bs)
  | some (.conditional first body) => .branches [.mk (some first) body, arm]
  | some initial => .branches [arm, .mk none [initial]]

def underElse (old : Option Content) (condition : String) (value : Content) : Content :=
  let otherwise : Branch := .mk none [value]
  match old with
  | none => .branches [.mk (some condition) [], otherwise]
  | some (.conditional first body) => .branches [.mk (some first) body, otherwise]
  | some (.branches bs) => .branches (bs.filter (·.condition.isSome) ++ [otherwise])
  | some initial => .branches [.mk (some condition) [initial], otherwise]

def assign (change : Option Content → Content → Content) (s : Scope)
    (entry : String × Content) : Scope :=
  if s.knows entry.1 then
    { s with bound := s.bound.set entry.1 (change (s.bound.get? entry.1) entry.2) }
  else s

def conditional (p : Preamble) (s : Scope) (m : Match) : Reviewed Scope :=
  match balancedEnd? p.masked (m.stop - 1) with
  | none => pure s
  | some close => do
    let condition := String.ofList (stripProps (trim (slice p.text m.stop close)))
    let start := close + 1 + ((p.text.drop (close + 1)).takeWhile isBlank).length
    let stop := bodyStop p start
    let s := (← assignments p start stop).foldl
      (assign fun old value => underCondition old condition value) s
    match elseBody? p (stop + 1) with
    | none => pure s
    | some (start, stop) =>
      pure ((← assignments p start stop).foldl
        (assign fun old value => underElse old condition value) s)

/-- Bindings made by declarations and then by conditional assignments, each in order. -/
def ofPreamble (t : List Char) : Reviewed Bindings := do
  let p : Preamble := ⟨t, mask t⟩
  let s ← (declaration.findAll p.masked).foldlM (declare p) {}
  let s ← (ifHead.findAll p.masked).foldlM (conditional p) s
  pure s.bound

end Bindings

namespace Content

/-- Content of the children of an element, with the names bound before it resolved. -/
def ofRoot (root : Element) (preamble : List Char) : Reviewed (List Content) := do
  let elements ← ofNodes ofExpression root.children
  let bindings ← Bindings.ofPreamble preamble
  pure (resolveAll bindings.get? elements)

end Content

end JsxToJinja
