import JsxToJinja.Text.Slice

/-! Lines of a template and the depth they are indented by. -/
namespace JsxToJinja.Jinja
open JsxToJinja.Text

structure Options where
  /-- Text that one level of depth puts before a line. -/
  indent : String := "    "
  /-- Variable that collects the classes of the root. -/
  classVar : String := "css_classes"
deriving Repr, DecidableEq

structure Line where
  depth : Nat
  text : String
deriving Repr, DecidableEq

namespace Line

def render (indent : String) (l : Line) : String :=
  String.join (List.replicate l.depth indent) ++ l.text ++ "\n"

def top (text : String) : Line := ⟨0, text⟩

/-- The lines one level deeper. A line without text stays at the margin. -/
def deeper (ls : List Line) : List Line :=
  ls.map fun l => if l.text.isEmpty then l else { l with depth := l.depth + 1 }

/-- Lines of a text; blank ones carry no text. -/
def ofText (text : String) : List Line :=
  (lines text.toList).map fun l => top (if (trim l).isEmpty then "" else String.ofList l)

def renderAll (indent : String) (ls : List Line) : String :=
  String.join (ls.map (render indent))

end Line

/-- Text under construction with a current depth. -/
structure Page where
  indent : String := "    "
  depth : Nat := 0
  text : String := ""
deriving Repr, DecidableEq

namespace Page

def add (p : Page) (text : String) : Page := { p with text := p.text ++ text }

def line (p : Page) (text : String) : Page := p.add ((Line.mk p.depth text).render p.indent)

/-- Every line of a text at the current depth; blank ones stay empty. -/
def lines (p : Page) (text : String) : Page :=
  (Line.ofText text).foldl (fun p l => if l.text.isEmpty then p.add "\n" else p.line l.text) p

def deeper (p : Page) : Page := { p with depth := p.depth + 1 }

/-- Depth zero is the least. -/
def shallower (p : Page) : Page := { p with depth := p.depth - 1 }

end Page

def statement (code : String) : String := "\x7b% " ++ code ++ " %\x7d"

def output (code : String) : String := "\x7b\x7b " ++ code ++ " \x7d\x7d"

def guarded (condition text : String) : String :=
  statement ("if " ++ condition) ++ text ++ statement "endif"

end JsxToJinja.Jinja
