import Restyler.Cli.Command
import Std.Time.DateTime

/-!
# The program

Reads what a command can look at into a tree, executes the command on the tree, and writes back the
files that it changed. The clock is read once, when the program starts. Only here is anything read
from or written to the machine.
-/

namespace Restyler.Host

def toText (s : Bytes) : String := String.ofList (Utf8.chars s)

/-- Reads the node at a place, and with `deep` everything below it that a walk can come to. What
cannot be read is kept as a node without permission to read it. -/
partial def readNode (deep : Bool) (t : Tree) (l : Location) : IO Tree := do
  let path := (← IO.currentDir) / toText (Path.ofNames l)
  match ← path.metadata.toBaseIO with
  | .error _ => return t
  | .ok info =>
    if info.type == .dir then
      let t := if l = [] then t else t.set l (.dir .ofDirectory)
      if !deep then return t
      match ← path.readDir.toBaseIO with
      | .error _ => return t.set l (.dir 0o300)
      | .ok children =>
        children.foldlM (fun t child =>
          let name := bytes child.fileName
          readNode (!Walk.isSkipped name) t (l ++ [name])) t
    else
      match ← (IO.FS.readBinFile path).toBaseIO with
      | .ok data => return t.set l (.file .ofFile data.toList)
      | .error _ => return t.set l (.file 0 [])

/-- Reads every place on the way along a path, and the last one with `deep`. -/
def readPath (cwd : Location) (deep : Bool) (t : Tree) (path : Bytes) : IO Tree := do
  let place (p : Bytes) : Location := Path.names (Path.absolute (Path.ofNames cwd) p)
  let t ← (Path.stages path).foldlM (fun t p => readNode false t (place p)) t
  readNode deep t (place path)

/-- Everything that an invocation can look at. -/
def readTree (cwd : Location) (i : Cli.Invocation) : IO Tree := do
  let t ← (Path.ancestors cwd).foldlM (readNode false) Tree.empty
  let t ← ((Path.ancestors cwd).map Settings.candidate).foldlM (readPath cwd false) t
  let t ← [i.config, i.trace].foldlM (readPath cwd false) t
  i.paths.foldlM (readPath cwd true) t

/-- Writes the files that are new or have other contents. -/
def writeBack (old new : Tree) : IO Unit := do
  let base ← IO.currentDir
  for (l, c) in new.filesBelow [] do
    let same := match old.get? l with
      | some (.file _ before) => before == c
      | _ => false
    if !same then IO.FS.writeBinFile (base / toText (Path.ofNames l)) c.toByteArray

def now : IO Trace.Moment := do
  let t ← Std.Time.Timestamp.now
  return ⟨0, t.toNanosecondsSinceUnixEpoch.val, 0⟩

end Restyler.Host

open Restyler in
def main (arguments : List String) : IO UInt32 := do
  let arguments := arguments.map bytes
  let cwd := Path.names (bytes (← IO.currentDir).toString)
  let invocation := (Cli.Invocation.ofArguments arguments).toOption.getD .empty
  let tree ← Host.readTree cwd invocation
  let response := Cli.execute { tree, cwd } (← Host.now) arguments
  Host.writeBack tree response.disk.tree
  (← IO.getStdout).write response.stdout.toByteArray
  (← IO.getStderr).write response.stderr.toByteArray
  return response.exit.toUInt32
