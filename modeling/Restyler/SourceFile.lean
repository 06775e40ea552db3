import Restyler.Disk
import Restyler.Encoding.Basic

/-!
# Source files

A file's decoded text with what is needed to write it back. A save encodes the text, then overwrites
the file, and then takes the text over; it ends at the first of these that fails.
-/

namespace Restyler

structure SourceFile where
  path : Bytes
  text : Bytes
  encoding : Encoding
  mode : Mode

namespace SourceFile

def ofOs {α : Type} : Except OsError α → Except Failure α
  | .ok a => .ok a
  | .error e => .error (.os e)

def load (d : Disk) (path : Bytes) (encoding : Encoding) : Except Failure SourceFile := do
  let node ← ofOs (d.stat path)
  if node.isDir then .error (.within path .directory)
  else
    let data ← ofOs (d.read path)
    match encoding.decode data with
    | .ok text => .ok ⟨path, text, encoding, node.mode⟩
    | .error f => .error (.within path f)

/-- Encodes a text and overwrites the file with it; permission bits are kept. The file and the disk
are what they are then, also after a failure. -/
def put (f : SourceFile) (d : Disk) (text : Bytes) : (SourceFile × Disk) × Option Failure :=
  match f.encoding.encode text with
  | .error e => ((f, d), some (.within f.path e))
  | .ok data =>
    match d.write f.path data (if f.mode = 0 then .ofFile else f.mode) with
    | (d, some e) => ((f, d), some (.within (bytes "write " ++ f.path) (.os e)))
    | (d, none) => (({ f with text := text }, d), none)

/-- The file and the disk after a save that succeeds. -/
def save (f : SourceFile) (d : Disk) (text : Bytes) : Except Failure (SourceFile × Disk) :=
  match f.put d text with
  | (_, some e) => .error e
  | (s, none) => .ok s

end SourceFile

end Restyler
