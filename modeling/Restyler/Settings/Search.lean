import Restyler.Disk
import Restyler.Settings.Overlay

/-!
# Settings on a disk

Settings are read from a file on top of the standard ones. Without a named file the nearest
`jsrestyle.toml` counts, searched from a directory upwards to the root.
-/

namespace Restyler

namespace Settings

def fileName : Bytes := bytes "jsrestyle.toml"

/-- Adds what was being done to a failure. -/
def within {α : Type} (context : Bytes) : Except Failure α → Except Failure α
  | .ok a => .ok a
  | .error f => .error (.within context f)

/-- The contents of a settings file. -/
def contents (d : Disk) (path : Bytes) : Except Failure Bytes :=
  match d.read path with
  | .ok s => .ok s
  | .error e => .error (.within parseContext (.os e))

/-- Reads and validates a settings file. -/
def load (d : Disk) (path : Bytes) : Except Failure Settings :=
  within path do
    let s ← standard.overlay (← contents d path)
    let s := { s with path := path }
    s.validate
    return s

/-- The path of a settings file in a directory. -/
def candidate (directory : Location) : Bytes := Path.join (Path.ofNames directory) fileName

/-- The first of the directories that has a settings file. Only a missing file lets the search go
on; any other refusal ends it. -/
def searchIn (d : Disk) : List Location → Except Failure (Option Bytes)
  | [] => .ok none
  | directory :: rest =>
    let path := candidate directory
    match d.stat path with
    | .ok _ => .ok (some path)
    | .error e =>
      if e.errno = .noEntry then searchIn d rest
      else .error (.within (bytes "failed to stat " ++ Text.quoted path) (.os e))

/-- Searches from a directory upwards. No directory means the working directory. -/
def find (d : Disk) (start : Bytes) : Except Failure (Option Bytes) := do
  let start := if start = [] then Path.here else start
  let directory ← within (bytes "failed to resolve start directory") (d.absolute start)
  searchIn d (Path.ancestors (Path.names directory))

/-- Reads the nearest settings file. -/
def discover (d : Disk) (start : Bytes) : Except Failure Settings := do
  match ← find d start with
  | some path => load d path
  | none => .error .settingsNotFound

end Settings

end Restyler
