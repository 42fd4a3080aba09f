import JsxToJinja.Path

/-! Files held in memory, by normalized path. -/
namespace JsxToJinja

/-- Files sorted by path, each path once. -/
structure FileTree where
  files : List (String × String) := []
  /-- Path of every write so far, the latest first. -/
  written : List String := []
deriving Repr, DecidableEq

namespace FileTree

/-- Replaces the contents of a path, or puts it in its place in the order. -/
def put (path contents : String) : List (String × String) → List (String × String)
  | [] => [(path, contents)]
  | (p, c) :: rest =>
    if p == path then (path, contents) :: rest
    else if Path.lt path p then (path, contents) :: (p, c) :: rest
    else (p, c) :: put path contents rest

def write (tree : FileTree) (path contents : String) : FileTree :=
  let key := Path.normalize path
  ⟨put key contents tree.files, key :: tree.written⟩

def read? (tree : FileTree) (path : String) : Option String :=
  let key := Path.normalize path
  (tree.files.find? (·.1 == key)).map (·.2)

def has (tree : FileTree) (path : String) : Bool := (tree.read? path).isSome

def timesWritten (tree : FileTree) (path : String) : Nat := tree.written.count (Path.normalize path)

theorem find?_put_self (path contents : String) (files : List (String × String)) :
    (put path contents files).find? (·.1 == path) = some (path, contents) := by
  induction files with
  | nil => simp [put]
  | cons f rest ih =>
    rw [put]
    split
    · simp
    · split
      · simp
      · simp_all

theorem find?_put_of_ne {path other : String} (contents : String) (files : List (String × String))
    (h : other ≠ path) :
    (put path contents files).find? (·.1 == other) = files.find? (·.1 == other) := by
  induction files with
  | nil => simp [put, Ne.symm h]
  | cons f rest ih =>
    rw [put]
    split
    · simp_all [Ne.symm h]
    · split
      · simp [Ne.symm h]
      · simp [List.find?_cons, ih]

/-- What is written is read back. -/
@[simp] theorem read?_write_self (tree : FileTree) (path contents : String) :
    (tree.write path contents).read? path = some contents := by
  simp [write, read?, find?_put_self]

/-- Writing leaves other files alone. -/
theorem read?_write_of_ne (tree : FileTree) {path other : String} (contents : String)
    (h : Path.normalize other ≠ Path.normalize path) :
    (tree.write path contents).read? other = tree.read? other := by
  simp [write, read?, find?_put_of_ne contents tree.files h]

@[simp] theorem timesWritten_write_self (tree : FileTree) (path contents : String) :
    (tree.write path contents).timesWritten path = tree.timesWritten path + 1 := by
  simp [write, timesWritten]

theorem timesWritten_write_of_ne (tree : FileTree) {path other : String} (contents : String)
    (h : Path.normalize other ≠ Path.normalize path) :
    (tree.write path contents).timesWritten other = tree.timesWritten other := by
  simp [write, timesWritten, Ne.symm h]

/-- No write takes a file away. -/
theorem has_write {tree : FileTree} {other : String} (path contents : String)
    (h : tree.has other) : (tree.write path contents).has other := by
  by_cases hpath : Path.normalize other = Path.normalize path
  · have hself := read?_write_self tree path contents
    rw [read?, ← hpath] at hself
    simp [has, read?, hself]
  · rwa [has, read?_write_of_ne tree contents hpath]

def paths (tree : FileTree) : List String := tree.files.map (·.1)

/-- Names of the files and directories in a directory, each once. -/
def children (tree : FileTree) (dir : String) : List String :=
  let inside := Path.steps (Path.normalize dir)
  (tree.paths.filterMap fun p =>
    let steps := Path.steps p
    if inside.isPrefixOf steps then (steps.drop inside.length).head?.map Path.Step.text
    else none).foldl (fun acc n => if acc.contains n then acc else acc ++ [n]) []

def hasPlace (tree : FileTree) (path : String) : Bool :=
  tree.has path || !(tree.children path).isEmpty

def ofList (files : List (String × String)) : FileTree :=
  files.foldl (fun tree (p, c) => tree.write p c) {}

def missing (path : String) : String := path ++ " not found"

end FileTree

end JsxToJinja
