import Restyler.Run.Basic
import Restyler.Timer
import Restyler.Trace.Sink

/-!
# Tracing and timing a run

The observer that traces a run and times its phases. The run is a span, each file is a span inside
it, and steps that changed a text are points inside the span of the file.
-/

namespace Restyler

structure Watch where
  session : Trace.Session
  sink : Trace.Sink
  timer : Option Timer
  /-- The handle of the phase that is being timed. -/
  handle : Int
  /-- The clock reading in nanoseconds. -/
  now : Nat
  /-- The span that the run is in, zero for none. -/
  outer : Nat
  run : Trace.Span
  file : Trace.Span

namespace Watch

def start (session : Trace.Session) (sink : Trace.Sink) (timer : Option Timer) (outer : Nat) :
    Watch :=
  ⟨session, sink, timer, -1, 0, outer, .none, .none⟩

/-- Finishes the span of a file that failed. -/
def closeFile (w : Watch) (detail : Bytes) : Watch :=
  { w with session := w.session.finishSpan w.file detail }

def closeRun (w : Watch) (files : Nat) (detail : Bytes) : Watch :=
  { w with session := w.session.finishSpan (w.run.withExtra (bytes "files") (decimal files)) detail }

/-- Records a note in the session and on the timer. -/
def take (w : Watch) : Note → Watch
  | .runStarted =>
    let (session, run) := w.session.startSpan .run (bytes "restyle") w.outer
    { w with session, run }
  | .fileStarted path =>
    let (session, file) := w.session.startSpan .file path w.run.id
    { w with session, file }
  | .phaseStarted phase =>
    let (timer, handle) := Timer.startIn w.timer w.now phase.name
    { w with timer, handle }
  | .phaseFinished _ => { w with timer := Timer.finishIn w.timer w.now w.handle }
  | .stepChanged step =>
    { w with session := w.session.point .step step.name (bytes "changed") w.file.id }
  | .loadFailed => w.closeFile (bytes "load failed")
  | .writeFailed => w.closeFile (bytes "write failed")
  | .fileFinished status =>
    { w with session := w.session.finishSpan (w.file.withExtra (bytes "status") status.name) [] }
  | .runFailed argument cause files =>
    ({ w with session := w.session.error .file argument cause.message w.run.id }).closeRun files
      (bytes "failed")
  | .runFinished files => w.closeRun files []

/-- Writes the events since the `n`-th to the sink. -/
def flushFrom (n : Nat) (w : World Watch) : World Watch :=
  let (sink, disk) := Trace.Sink.write (w.watch.session.textFrom n) (w.watch.sink, w.disk)
  ⟨disk, { w.watch with sink }⟩

def observer : Observer Watch := fun note w =>
  flushFrom w.watch.session.events.length { w with watch := w.watch.take note }

end Watch

end Restyler
