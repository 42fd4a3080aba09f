import JsxToJinja.Code.Identifier
import JsxToJinja.Content.Basic

/-! Rewriting of names in content: fields of a loop item, and names bound before the markup. -/
namespace JsxToJinja
open JsxToJinja.Text JsxToJinja.Code JsxToJinja.Markup

/-- The character before a word makes it part of a longer name or a member. -/
def joinsWord (c : Char) : Bool := c == '.' || isIdentifierChar c

/-- Works through the marks; everything before `last` is written. -/
def qualifyFrom (names : List String) (item t : List Char) : Nat → List Mark → List Char
  | last, [] => t.drop last
  | last, m :: ms =>
    let before := if m.index = 0 then none else t[m.index - 1]?
    if m.index < last || !isIdentifierStart m.char || before.any joinsWord then
      qualifyFrom names item t last ms
    else
      let word := m.rest.takeWhile isIdentifierChar
      if names.contains (String.ofList word) then
        slice t last m.index ++ item ++ '.' :: word ++
          qualifyFrom names item t (m.index + word.length) ms
      else qualifyFrom names item t last ms

/-- Puts `item.` before every free occurrence of a name outside literals. -/
def qualify (names : List String) (item code : String) : String :=
  let t := code.toList
  String.ofList (qualifyFrom names item.toList t 0 (marks t))

def qualifyProps (f : String → String) (u : Usage) : Usage :=
  { u with props := u.props.map fun p => match p.value with
      | .expression e => { p with value := .expression (f e) }
      | _ => p }

namespace Content

mutual

/-- Applies a function to the code in content: names, conditions, expressions and properties. -/
def mapCode (f : String → String) : Content → Content
  | .literal t => .literal t
  | .reference n none => .reference (f n) none
  | .reference n (some r) => .reference (f n) (some (mapCode f r))
  | .element u cs => .element (qualifyProps f u) (mapCodeAll f cs)
  | .component u cs => .component (qualifyProps f u) (mapCodeAll f cs)
  | .conditional c b => .conditional (f c) (mapCodeAll f b)
  | .conditionalComponent c u cs => .conditionalComponent (f c) (qualifyProps f u) (mapCodeAll f cs)
  | .fallback chain => .fallback (chain.map f)
  | .ternary c a b => .ternary (f c) (mapCode f a) (mapCode f b)
  | .branches bs => .branches (mapCodeBranches f bs)
  | .arrayMap l b => .arrayMap { l with array := f l.array } (mapCodeAll f b)
  | .call g a => .call g (f a)
  | .unsupported c => .unsupported (f c)

def mapCodeAll (f : String → String) : List Content → List Content
  | [] => []
  | c :: cs => mapCode f c :: mapCodeAll f cs

def mapCodeBranches (f : String → String) : List Branch → List Branch
  | [] => []
  | b :: bs => mapCodeBranch f b :: mapCodeBranches f bs

def mapCodeBranch (f : String → String) : Branch → Branch
  | .mk c body => .mk (c.map f) (mapCodeAll f body)

end

mutual

def resolve (bound : String → Option Content) : Content → Content
  | .reference n none => .reference n (bound n)
  | .reference n (some r) => .reference n (some r)
  | .element u cs => .element u (resolveAll bound cs)
  | .component u cs => .component u (resolveAll bound cs)
  | .conditional c b => .conditional c (resolveAll bound b)
  | .conditionalComponent c u cs => .conditionalComponent c u (resolveAll bound cs)
  | .ternary c a b => .ternary c (resolve bound a) (resolve bound b)
  | .branches bs => .branches (resolveBranches bound bs)
  | .arrayMap l b => .arrayMap l (resolveAll bound b)
  | c => c

def resolveAll (bound : String → Option Content) : List Content → List Content
  | [] => []
  | c :: cs => resolve bound c :: resolveAll bound cs

def resolveBranches (bound : String → Option Content) : List Branch → List Branch
  | [] => []
  | b :: bs => resolveBranch bound b :: resolveBranches bound bs

def resolveBranch (bound : String → Option Content) : Branch → Branch
  | .mk c body => .mk c (resolveAll bound body)

end

end Content

end JsxToJinja
