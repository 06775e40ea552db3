import Restyler.Pipeline
import Restyler.Run.Outcome
import Restyler.Run.Walk
import Restyler.SourceFile

/-!
# Runs

A run takes its arguments in order and the files below a directory in the order of the walk, one
file at a time, and each path once. The first failure ends it, and what was done before stays. An
observer is told everything that happens, in order; it keeps a state of its own, and may write to
the disk. A reporter is shown each outcome and may cancel the run or answer with a failure, which
stops it; only a walk understands two of the failures otherwise, as a request to leave something
out. A run can be cancelled from outside as well, at any time; it looks before each file and at each
visit of a walk.
-/

namespace Restyler

inductive Phase where
  | load
  | transform
  | write
  deriving DecidableEq

def Phase.name : Phase → Bytes
  | .load => bytes "load"
  | .transform => bytes "rewrite"
  | .write => bytes "write"

/-- What happens in a run. -/
inductive Note where
  | runStarted
  | fileStarted (path : Bytes)
  | phaseStarted (phase : Phase)
  | phaseFinished (phase : Phase)
  | stepChanged (step : Step)
  | loadFailed
  | writeFailed
  | fileFinished (status : Status)
  | runFailed (argument : Bytes) (cause : Failure) (files : Nat)
  | runFinished (files : Nat)
  deriving DecidableEq

structure World (σ : Type) where
  disk : Disk
  watch : σ

abbrev Observer (σ : Type) := Note → World σ → World σ

/-- What a reporter answers. Cancelling takes effect at the next file, a failure at once. -/
structure Reply where
  cancels : Bool
  stops : Option Failure
  deriving DecidableEq

def Reply.proceed : Reply := ⟨false, none⟩

structure Options where
  dryRun : Bool
  encoding : Encoding
  pipeline : Pipeline
  extensions : List Bytes

def Options.standardExtensions : List Bytes := [bytes ".js"]

/-- No extensions means the standard ones. -/
def Options.selected (o : Options) : List Bytes :=
  if o.extensions = [] then standardExtensions else o.extensions

/-- A run to be made. The reporter is given the number of each report, from one. -/
structure Job (σ : Type) where
  observer : Observer σ
  options : Options
  reporter : Option (Nat → Outcome → Reply)
  /-- Whether the run has been cancelled from outside when it looks for the `n`-th time, from 0. -/
  interrupted : Nat → Bool := fun _ => false

/-- A run that is being made. -/
structure Run (σ : Type) where
  world : World σ
  results : List Outcome
  reported : List Outcome
  seen : List Bytes
  canceled : Bool
  failure : Option Failure
  /-- How often the run has looked whether it is cancelled. -/
  looks : Nat
  /-- The directory of the walk of which the rest is left out. -/
  skipped : Option (List Bytes)

/-- What a walk is to leave out the rest of, if a file in it has come to a failure that asks for it:
the directory of the file, or everything. -/
def Failure.skips? (names : List Bytes) : Failure → Option (List Bytes)
  | .skipDirectory => some names.dropLast
  | .skipAll => some []
  | _ => none

namespace Run

variable {σ : Type}

def fail (r : Run σ) (f : Failure) : Run σ := { r with failure := some f }

/-- Whether a node is among what the walk leaves out. -/
def skips (r : Run σ) (names : List Bytes) : Bool := r.skipped.any (Walk.isBelow · names)

/-- The run after a file of a walk. A failure that asks for something to be left out is none. -/
def caught (r : Run σ) (names : List Bytes) : Run σ :=
  match r.failure.bind (Failure.skips? names) with
  | some directory => { r with failure := none, skipped := some directory }
  | none => r

def note (r : Run σ) (observer : Observer σ) (n : Note) : Run σ :=
  { r with world := observer n r.world }

end Run

namespace Job

variable {σ : Type}

/-- Tells the observer several things in order. -/
def notes (job : Job σ) (w : World σ) (ns : List Note) : World σ :=
  ns.foldl (fun w n => job.observer n w) w

-- --------------------------------------------------------------------
-- One file

/-- Writes a changed text back. -/
def store (job : Job σ) (w : World σ) (file : SourceFile) (after : Bytes) :
    World σ × Except Failure Outcome :=
  let w := job.notes w [.phaseStarted .write]
  let ((_, disk), failure?) := file.put w.disk after
  let w := { w with disk }
  match failure? with
  | some f => (job.notes w [.phaseFinished .write, .writeFailed], .error f)
  | none =>
    (job.notes w [.phaseFinished .write, .fileFinished .updated],
      .ok ⟨file.path, .updated, file.text, after⟩)

/-- Transforms a loaded file, and writes it back if it changed and the run is not dry. -/
def transform (job : Job σ) (w : World σ) (file : SourceFile) : World σ × Except Failure Outcome :=
  let (after, changed) := job.options.pipeline.applyEach file.text
  let w := job.notes w (.phaseStarted .transform :: changed.map .stepChanged ++
    [.phaseFinished .transform])
  if after = file.text then
    (job.notes w [.fileFinished .unchanged], .ok ⟨file.path, .unchanged, file.text, after⟩)
  else if job.options.dryRun then
    (job.notes w [.fileFinished .wouldUpdate], .ok ⟨file.path, .wouldUpdate, file.text, after⟩)
  else job.store w file after

def restyle (job : Job σ) (w : World σ) (path : Bytes) : World σ × Except Failure Outcome :=
  let w := job.notes w [.fileStarted path, .phaseStarted .load]
  let loaded := SourceFile.load w.disk path job.options.encoding
  let w := job.notes w [.phaseFinished .load]
  match loaded with
  | .error f => (job.notes w [.loadFailed], .error f)
  | .ok file => job.transform w file

-- --------------------------------------------------------------------
-- Many files

/-- Shows an outcome to the reporter. -/
def report (job : Job σ) (r : Run σ) (o : Outcome) : Run σ :=
  match job.reporter with
  | none => r
  | some answer =>
    let r := { r with reported := r.reported ++ [o] }
    let reply := answer r.reported.length o
    let r := { r with canceled := r.canceled || reply.cancels }
    match reply.stops with
    | some f => r.fail f
    | none => r

/-- Looks whether the run is cancelled. What was left out is behind it by then. -/
def look (job : Job σ) (r : Run σ) : Run σ :=
  { r with
    canceled := r.canceled || job.interrupted r.looks
    looks := r.looks + 1
    skipped := none }

/-- Restyles a file unless its path was met before. -/
def process (job : Job σ) (r : Run σ) (path : Bytes) : Run σ :=
  if r.seen.contains path then r
  else
    let r := job.look { r with seen := path :: r.seen }
    if r.canceled then r.fail .canceled
    else match job.restyle r.world path with
      | (w, .error f) => ({ r with world := w }).fail f
      | (w, .ok o) => job.report { r with world := w, results := r.results ++ [o] } o

/-- One visit of a walk; none is made after a failure, nor to what is left out. -/
def visit (job : Job σ) (r : Run σ) (v : Visit) : Run σ :=
  if r.failure.isSome || r.skips v.names then r
  else match v with
    | .refused _ e => r.fail (.os e)
    | .pass _ =>
      let r := job.look r
      if r.canceled then r.fail .canceled else r
    | .file names path =>
      let r := job.look r
      if r.canceled then r.fail .canceled else (job.process r path).caught names

/-- A file that is named itself is taken whatever its extension, and every failure counts there. -/
def expand (job : Job σ) (r : Run σ) (path : Bytes) : Run σ :=
  match r.world.disk.resolve path with
  | .error e => r.fail (.os ⟨"stat", path, e⟩)
  | .ok (.free ..) => r.fail (.os ⟨"stat", path, .noEntry⟩)
  | .ok (.found _ (.file ..)) => job.process r path
  | .ok (.found l (.dir mode)) =>
    (Walk.visits r.world.disk.tree l mode path job.options.selected).foldl job.visit r
  | .ok (.removed ..) => (Walk.visitsOfRemoved path).foldl job.visit r

/-- One argument; none is taken after a failure. -/
def argument (job : Job σ) (r : Run σ) (path : Bytes) : Run σ :=
  if r.failure.isSome then r
  else
    let r := job.expand r path
    match r.failure with
    | none => r
    | some f => r.note job.observer (.runFailed path f r.results.length)

/-- A run that did not fail must have processed a file. -/
def conclude (job : Job σ) (r : Run σ) : Run σ :=
  if r.failure.isSome then r
  else
    let r := r.note job.observer (.runFinished r.results.length)
    if r.results = [] then r.fail .noFiles else r

/-- Makes the run. One that is cancelled beforehand is not observed at all. -/
def run (job : Job σ) (w : World σ) (paths : List Bytes) (canceled : Bool) : Run σ :=
  if canceled then ⟨w, [], [], [], true, some .canceled, 0, none⟩
  else
    let r : Run σ := ⟨job.observer .runStarted w, [], [], [], false, none, 0, none⟩
    job.conclude (paths.foldl job.argument r)

end Job

end Restyler
