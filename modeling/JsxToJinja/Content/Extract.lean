import JsxToJinja.Classes.Condition
import JsxToJinja.Content.Rewrite
import JsxToJinja.Markup.Mask

/-! Content of markup and of the expressions in it. Every step is stated over the content of shorter
expressions. -/
namespace JsxToJinja
open JsxToJinja.Text JsxToJinja.Code JsxToJinja.Markup

/-- A value together with the items for review met on the way to it. -/
structure Reviewed (α : Type) where
  value : α
  review : List ReviewItem := []

instance : Monad Reviewed where
  pure a := ⟨a, []⟩
  bind x f := let y := f x.value; ⟨y.value, x.review ++ y.review⟩

namespace Reviewed

@[simp] theorem value_pure (a : α) : (pure a : Reviewed α).value = a := rfl

@[simp] theorem review_pure (a : α) : (pure a : Reviewed α).review = [] := rfl

@[simp] theorem value_bind (x : Reviewed α) (f : α → Reviewed β) :
    (x >>= f).value = (f x.value).value := rfl

/-- No item is lost on the way. -/
@[simp] theorem review_bind (x : Reviewed α) (f : α → Reviewed β) :
    (x >>= f).review = x.review ++ (f x.value).review := rfl

end Reviewed

abbrev Reader := List Char → Reviewed (List Content)

namespace Content

def isNothing (t : List Char) : Bool :=
  ["null", "undefined", "false", "''", "\"\""].any (t == ·.toList)

def unsupportedCode (t : List Char) (issue : String) : Reviewed (List Content) :=
  let code := String.ofList t
  ⟨[.unsupported code],
    [⟨issue, .medium, some code, none, some "Translate this expression in the template by hand"⟩]⟩

mutual

/-- An element or a component; a fragment gives its children alone. -/
def ofElement (read : Reader) : Element → Reviewed (List Content)
  | ⟨name, props, spreads, nodes, _, _, _⟩ => do
    let children ← ofNodes read nodes
    if name.isEmpty then pure children
    else if isComponentName name then pure [.component ⟨name, props, spreads⟩ children]
    else pure [.element ⟨name, props, spreads⟩ children]

def ofNodes (read : Reader) : List Node → Reviewed (List Content)
  | [] => pure []
  | n :: rest => do
    let first ← ofNode read n
    let others ← ofNodes read rest
    pure (first ++ others)

def ofNode (read : Reader) : Node → Reviewed (List Content)
  | .text t => pure [.literal t]
  | .element e => ofElement read e
  | .expression code => read code.toList

end

def wholeElement? (t : List Char) : Option Element :=
  (parseElement? t 0).bind fun e => if e.stop == t.length then some e else none

/-- An operand of `?:`, `&&` or `||`: nothing, an element or another expression. -/
def ofOperand (read : Reader) (t : List Char) : Reviewed (List Content) :=
  let t := stripOuterParens t
  if isNothing t then pure [] else
    match wholeElement? t with
    | some e => ofElement read e
    | none => read t

def code (t : List Char) : String := String.ofList (stripProps t)

/-- A side that renders nothing leaves a condition; two single sides that do not iterate stay a
conditional, all else becomes branches. -/
def ofTernary (read : Reader) (condition yes no : List Char) : Reviewed Content := do
  let condition := code condition
  let whenTrue ← ofOperand read yes
  let whenFalse ← ofOperand read no
  if whenFalse.isEmpty then pure (.conditional condition whenTrue)
  else if whenTrue.isEmpty then pure (.conditional ("!(" ++ condition ++ ")") whenFalse)
  else
    let branched := Content.branches [.mk (some condition) whenTrue, .mk none whenFalse]
    if (whenTrue ++ whenFalse).any iterates then pure branched
    else match whenTrue, whenFalse with
      | [a], [b] => pure (.ternary condition a b)
      | _, _ => pure branched

def fallbackOperands (t : List Char) : List (List Char) :=
  let operands := splitTopLevel t "||".toList
  if operands.length == 1 then splitTopLevel t "??".toList else operands

/-- Every operand but the last is the condition of its own arm. -/
def armsOf : List (List Char × List Content) → List Branch
  | [] => []
  | [(_, body)] => [.mk none body]
  | (operand, body) :: rest => .mk (some (code (stripOuterParens operand))) body :: armsOf rest

def ofOperands (read : Reader) : List (List Char) → Reviewed (List (List Content))
  | [] => pure []
  | o :: rest => do
    let body ← ofOperand read o
    let bodies ← ofOperands read rest
    pure (body :: bodies)

/-- Paths and strings joined by `||` or `??` stay a chain; other operands become branches. -/
def ofFallback (read : Reader) (t : List Char) : Reviewed Content := do
  let operands := fallbackOperands t
  let bodies ← ofOperands read operands
  let simple := operands.all fun o => isMemberPath o || (stringLiteral? o).isSome
  if simple && !bodies.flatten.any iterates then pure (.fallback (operands.map code))
  else pure (.branches (armsOf (operands.zip bodies)))

/-- The last operand of a conjunction is the body, the others are the condition. -/
def ofConjunction (read : Reader) (t : List Char) : Reviewed (List Content) := do
  let parts := splitTopLevel t "&&".toList
  match parts.getLast? with
  | none => pure []
  | some last =>
    let condition := code (" && ".toList.intercalate parts.dropLast)
    let body ← ofOperand read last
    match body with
    | [.component u children] => pure [.conditionalComponent condition u children]
    | _ => pure [.conditional condition body]

def untyped (param : List Char) : String := String.ofList (trim (param.takeWhile (· != ':')))

/-- End of the statement at a position: the first `;` or closing bracket outside brackets. -/
def statementStop (masked : List Char) (start : Nat) : Nat :=
  go 0 (marks (masked.drop start))
where
  go : Nat → List Mark → Nat
    | _, [] => masked.length
    | depth, m :: ms =>
      if isOpening m.char then go (depth + 1) ms
      else if isClosing m.char then
        match depth with
        | 0 => start + m.index
        | d + 1 => go d ms
      else if m.char == ';' && depth == 0 then start + m.index
      else go depth ms

/-- Expression of the last `return` outside brackets in a block. -/
def returned? (block : List Char) : Option (List Char) := do
  let masked := mask block
  let m ← ((marks masked).filter fun m =>
    m.depth == 0 && startsWith m.rest "return".toList).getLast?
  let start := m.index + 6
  some (trim (slice block start (statementStop masked start)))

def propCode : PropValue → String
  | .literal text => "'" ++ text ++ "'"
  | .expression c => code c.toList
  | .flag => "true"

/-- Array, loop variables and rendered body of a call of `map` that makes up the whole text. -/
def loopHead? (t : List Char) : Option (Loop × List Char) := do
  let i ← findTopLevel? t ".map(".toList
  let opening := i + 4
  let close ← balancedEnd? t opening
  if !(trim (t.drop (close + 1))).isEmpty then none else
    let array := code ((trim (t.take i)).reverse.dropWhile (· == '?')).reverse
    let callback := slice t (opening + 1) close
    let arrow ← findTopLevel? callback "=>".toList
    let params := splitTopLevel (stripOuterParens (callback.take arrow)) [',']
    let body := trim (callback.drop (arrow + 2))
    let first ← params.head?
    let (itemVar, destructured) ←
      if first.head? == some '\x7b' then do
        let inner ← balancedInner? first 0
        let names := (splitTopLevel inner [',']).map fun n =>
          trim (n.takeWhile fun c => c != ':' && c != '=')
        some ("item", (names.filter isIdentifier).map String.ofList)
      else some (untyped first, [])
    let body ← if body.head? == some '\x7b' then (balancedInner? body 0).bind returned? else some body
    some ({ array, itemVar, destructured, indexVar := (params[1]?).map untyped },
      stripOuterParens body)

def withElement (l : Loop) (e : Element) : Loop :=
  { l with
    spread := e.spreads.contains l.itemVar
    props := (e.props.filter (·.name != "key")).map fun p => (p.name, propCode p.value)
    tag := if e.isComponent then some e.name else none }

/-- Iteration over an array. Names taken out of the item become fields of it. -/
def ofLoop? (read : Reader) (t : List Char) : Option (Reviewed Content) :=
  (loopHead? t).map fun (head, body) => do
    let element := wholeElement? body
    let head := (element.map (withElement head)).getD head
    let content ← match element with
      | some e => ofElement read e
      | none => read body
    if head.destructured.isEmpty then pure (.arrayMap head content)
    else
      let field := qualify head.destructured head.itemVar
      pure (.arrayMap { head with props := head.props.map fun p => (p.1, field p.2) }
        (mapCodeAll field content))

def callHead : Pattern :=
  .start ++ .group 1 (.one isIdentifierStart ++ .many 0 fun c => isWord c || c == '$' || c == '.') ++
    .blanks ++ .lit "("

def startsCall (t : List Char) : Bool := callHead.test t

def ofCall? (t : List Char) : Option Content := do
  let m ← callHead.find? t
  let close ← balancedEnd? t (m.stop - 1)
  if close + 1 == t.length then
    some (.call (String.ofList (m.text t 1)) (code (trim (slice t m.stop close))))
  else none

/-- One step: the content of an expression in terms of the content of others. -/
def ofExpressionStep (read : Reader) (t : List Char) : Reviewed (List Content) :=
  let t := stripOuterParens t
  if t.isEmpty then pure [] else
  match splitTernary? t with
  | some (condition, yes, no) => do pure [← ofTernary read condition yes no]
  | none =>
  if containsTopLevel t "||".toList || containsTopLevel t "??".toList then
    do pure [← ofFallback read t]
  else if containsTopLevel t "&&".toList then ofConjunction read t
  else if containsTopLevel t ".map(".toList then
    match ofLoop? read t with
    | some found => do pure [← found]
    | none => unsupportedCode t "Unrecognized array iteration"
  else match stringLiteral? t with
  | some s => pure [.literal (String.ofList s)]
  | none =>
  if isMemberPath t then pure [.reference (code t) none]
  else match ofCall? t with
  | some c => pure [c]
  | none => unsupportedCode t "Unsupported content expression"

/-- Content of an expression, followed through at most so many nested expressions. -/
def ofExpressionWithin : Nat → Reader
  | 0 => fun _ => pure []
  | depth + 1 => ofExpressionStep (ofExpressionWithin depth)

/-- Content of an expression. Nested expressions are shorter, so their depth is below its length. -/
def ofExpression (t : List Char) : Reviewed (List Content) := ofExpressionWithin (t.length + 1) t

end Content

end JsxToJinja
