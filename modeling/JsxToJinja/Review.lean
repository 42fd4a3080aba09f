import JsxToJinja.Json.Basic
import JsxToJinja.Text.Naming

/-! Constructs that a person has to look at, and the report that lists them. -/
namespace JsxToJinja

inductive Severity where
  | low
  | medium
  | high
deriving Repr, DecidableEq

namespace Severity

def text : Severity → String
  | low => "low"
  | medium => "medium"
  | high => "high"

def ofText? : String → Option Severity
  | "low" => some low
  | "medium" => some medium
  | "high" => some high
  | _ => none

def rank : Severity → Nat
  | low => 0
  | medium => 1
  | high => 2

end Severity

/-- A construct that could not be converted with confidence. -/
structure ReviewItem where
  issue : String
  severity : Severity
  /-- The code that gave rise to the item. -/
  context : Option String := none
  /-- Line in the component's code, counted from one. -/
  line : Option Nat := none
  action : Option String := none
deriving Repr, DecidableEq

namespace ReviewItem

def toJson (item : ReviewItem) : Json :=
  .obj ([("issue", .str item.issue), ("severity", .str item.severity.text)] ++
    (item.context.map fun c => ("pattern", Json.str c)).toList ++
    (item.line.map fun n => ("source_line", Json.nat n)).toList ++
    (item.action.map fun a => ("action", Json.str a)).toList)

/-- Items by rising severity; items of one severity keep their order. -/
def bySeverity (items : List ReviewItem) : List ReviewItem :=
  items.mergeSort fun a b => a.severity.rank ≤ b.severity.rank

end ReviewItem

namespace Report

/-- Percentage of a conversion taken as automatic: five points less for every item, at least 50. -/
def automation (items : Nat) : Nat := max (95 - 5 * items) 50

/-- Lines on one item. -/
def entry (number : Nat) (item : ReviewItem) : List String :=
  let line := match item.line with
    | some n => toString n
    | none => "?"
  [toString number ++ ". **" ++ item.issue ++ "** (line " ++ line ++ ")",
    "   - Severity: " ++ item.severity.text] ++
  (item.context.map fun c => "   - Pattern: \x60" ++ c ++ "\x60").toList ++
  (item.action.map fun a => "   - Action: " ++ a).toList ++ [""]

/-- Markdown document on the items of one component. -/
def document (name : String) (items : List ReviewItem) : String :=
  let percent := automation items.length
  let head := ["# " ++ Text.titleCase name ++ " Conversion Review", "",
    "## Automatic Conversion: " ++ toString percent ++ "%",
    "## Manual Review Required: " ++ toString (100 - percent) ++ "%", ""]
  let body :=
    if items.isEmpty then ["No manual review items! ✅", ""]
    else ["### Items Requiring Review:", ""] ++
      (items.zipIdx.flatMap fun (item, i) => entry (i + 1) item)
  "\n".intercalate (head ++ body)

end Report

end JsxToJinja
