import JsxToJinja.Path

/-! What a conversion reports while it runs. -/
namespace JsxToJinja

/-- What became of a nested component. -/
inductive NestedOutcome where
  | converted (name : String)
  /-- Its template was there before. -/
  | existing (name : String)
  | failed (name message : String)
deriving Repr, DecidableEq

/-- What a conversion made. -/
structure Summary where
  name : String
  sourceFile : String
  template : String
  definition : String
  review : String
  reviewItems : Nat
  /-- Percentage taken as automatic. -/
  automation : Nat
  aliases : List String
  nested : List NestedOutcome
deriving Repr, DecidableEq

inductive Event where
  | start (component output : String) (aliases : List String)
  | step (title : String)
  | ok (text : String)
  | info (text : String)
  | warn (text : String)
  | finish (summary : Summary)
deriving Repr, DecidableEq

def unlines (ls : List String) : String := String.join (ls.map (· ++ "\n"))

namespace Event

def rule : String := String.ofList (List.replicate 60 '=')

def nestedLine : NestedOutcome → String
  | .converted name => "   ✓ Nested: " ++ name ++ " (converted)"
  | .existing name => "   ℹ Nested: " ++ name ++ " (already converted)"
  | .failed name _ => "   ✗ Nested: " ++ name ++ " (failed)"

def shown (root path : String) : String := (Path.relativeTo? root path).getD path

def console (root : String) : Event → String
  | start component output aliases => unlines (
      ["", "🔄 Converting component: " ++ component] ++
      (if output == component then [] else ["   Output name: " ++ output]) ++
      (if aliases.isEmpty then [] else ["   Aliases: " ++ ", ".intercalate aliases]) ++ [rule])
  | step title => unlines ["", title]
  | ok text => unlines ["   ✓ " ++ text]
  | info text => unlines ["   ℹ " ++ text]
  | warn text => unlines ["   ⚠ " ++ text]
  | finish s => unlines (
      ["", rule, "✅ Conversion complete!", "", "   Automation: " ++ toString s.automation ++ "%",
        "   Manual review items: " ++ toString s.reviewItems] ++
      s.nested.map nestedLine ++
      ["", "📦 Output files:", "   Template:   " ++ shown root s.template,
        "   Definition: " ++ shown root s.definition,
        "   Review:     " ++ shown root s.review])

end Event

end JsxToJinja
