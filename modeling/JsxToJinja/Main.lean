import JsxToJinja.Clock
import JsxToJinja.CommandLine.Run
import Std.Time.DateTime.Timestamp

/-! The program: it takes the text files below the working directory, runs the command on them and
writes back those that the command wrote. -/
namespace JsxToJinja

private def readTree (root : String) : IO FileTree := do
  let mut tree : FileTree := {}
  for path in ← (← IO.currentDir).walkDir do
    if !(← path.isDir) then
      try
        tree := tree.write (Path.join root path.toString) (← IO.FS.readFile path)
      catch _ => pure ()
  return tree

private def writeBack (old new : FileTree) : IO Unit := do
  for path in (new.written.take (new.written.length - old.written.length)).eraseDups do
    if let some contents := new.read? path then
      IO.FS.createDirAll ((Path.parent? path).getD "/")
      IO.FS.writeFile path contents

private def now : IO String := do
  let t := (← Std.Time.Timestamp.now).toNanosecondsSinceUnixEpoch.toInt.toNat
  return Clock.text (t / 1000000000) (t % 1000000000)

end JsxToJinja

open JsxToJinja in
def main (args : List String) : IO UInt32 := do
  let root := (← IO.currentDir).toString
  let tree ← readTree root
  let outcome := CommandLine.run root (← now) tree args
  writeBack tree outcome.tree
  IO.print outcome.stdout
  IO.eprint outcome.stderr
  return outcome.exitCode.toUInt32
