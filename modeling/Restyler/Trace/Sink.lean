import Restyler.Disk
import Restyler.Trace.Session

/-!
# Where traces go

A trace is kept in memory, or goes to a file that is written at the place where the last write
ended, or to a writer that can be flushed and closed. A sink that fails loses what was written and
never fails the run.
-/

namespace Restyler.Trace

structure OpenFile where
  path : Bytes
  location : Location
  offset : Nat
  isOpen : Bool
  deriving DecidableEq

inductive Sink where
  | memory
  | broken
  /-- A writer with the messages of the faults that flushing and closing meet. -/
  | writer (flushFault closeFault : Option Bytes)
  | file (f : OpenFile)
  deriving DecidableEq

/-- What a writer was asked to do. -/
inductive Call where
  | flush
  | close
  deriving DecidableEq

namespace Sink

/-- Contents with `text` at an offset; a gap before it is filled with zeros. -/
def patch (content : Bytes) (offset : Nat) (text : Bytes) : Bytes :=
  let held := content.take offset
  held ++ List.replicate (offset - held.length) 0 ++ text ++ content.drop (offset + text.length)

def write (text : Bytes) : Sink × Disk → Sink × Disk
  | (.file f, d) =>
    if f.isOpen && text ≠ [] then
      match d.tree.get? f.location with
      | some (.file _ content) =>
        (.file { f with offset := f.offset + text.length },
          { d with tree := d.tree.setContent f.location (patch content f.offset text) })
      | _ => (.file f, d)
    else (.file f, d)
  | other => other

/-- Whether what is written can be read back from the events. -/
def keeps : Sink → Bool
  | .memory => true
  | .writer .. => true
  | _ => false

def flush : Sink → List Call × Option Failure
  | .writer fault _ => ([.flush], fault.map .sink)
  | _ => ([], none)

/-- Flushes, and closes if that went well. -/
def close : Sink → Sink × List Call × Option Failure
  | .writer none fault => (.writer none fault, [.flush, .close], fault.map .sink)
  | .writer (some fault) c => (.writer (some fault) c, [.flush], some (.sink fault))
  | .file f =>
    if f.isOpen then (.file { f with isOpen := false }, [], none)
    else (.file f, [], some (.os ⟨"close", f.path, .closed⟩))
  | other => (other, [], none)

def errorStream : Bytes := bytes "-"

/-- Opens the output of a trace, which is emptied. Without a path, or with a dash, the trace goes to
the error stream and is kept in memory. -/
def create (d : Disk) (path : Bytes) : Except Failure (Sink × Disk) :=
  if path = [] || path = errorStream then .ok (.memory, d)
  else match d.openToWrite path 0o666 true with
    | .ok (l, d) => .ok (.file ⟨path, l, 0, true⟩, d)
    | .error e => .error (.within (bytes "failed to open trace output") (.os e))

end Sink

/-- The tracer for a level with its sink. A level that is off opens nothing. -/
def openTrace (d : Disk) (level : Level) (format : Format) (path : Bytes) :
    Except Failure (Tracer × Sink × Disk) :=
  match Tracer.new level format path with
  | .nop => .ok (.nop, .memory, d)
  | tracer =>
    match Sink.create d path with
    | .ok (sink, d) => .ok (tracer, sink, d)
    | .error f => .error f

end Restyler.Trace
