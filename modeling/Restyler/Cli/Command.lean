import Restyler.Cli.Flag
import Restyler.Cli.Help
import Restyler.Run.Watch
import Restyler.Settings.Search

/-!
# The command

What one invocation of the program does: from a disk and the arguments to the texts on the two
output streams, the exit status and the disk afterwards. The command line is checked first, then
help and version are answered, then the number of paths, the modes, the colour, the settings and the
tracing are checked in this order, and only then does the run begin.
-/

namespace Restyler.Cli

/-- Why a command fails. -/
inductive Complaint where
  | flag (fault : FlagFault)
  | tooFewPaths (received : Nat)
  | exclusiveModes
  | colour (value : Bytes)
  | failure (f : Failure)
  | pending (files : Nat)
  deriving DecidableEq

def Complaint.message : Complaint → Bytes
  | .flag fault => fault.message
  | .tooFewPaths n => bytes "requires at least 1 arg(s), only received " ++ decimal n
  | .exclusiveModes => bytes "--dry-run and --check are mutually exclusive"
  | .colour value =>
    bytes "invalid --color value " ++ Text.quoted value ++ bytes " (expected auto|on|off)"
  | .failure f => f.message
  | .pending n => decimal n ++ bytes " file(s) would be restyled"

structure Response where
  exit : Nat
  stdout : Bytes
  stderr : Bytes
  disk : Disk
  deriving DecidableEq

/-- The commands that the reader of the command line brings along. -/
def ownCommands : List Bytes :=
  [bytes "completion", bytes "__complete", bytes "__completeNoDesc"]

/-- What a command gets from outside: the multi-byte character sets, and the exit status and the
texts on the two output streams with which the reader's own commands answer the arguments that call
one of them. They touch no file. -/
structure Library where
  multibyte : Bytes → Multibyte
  answer? : List Bytes → Option (Nat × Bytes × Bytes)
  /-- Only by its name is one of them called. -/
  answer?_named : ∀ arguments, (∀ a ∈ arguments, a ∉ ownCommands) → answer? arguments = none

/-- A library of which only the ASCII half of the character sets is known, and no command. -/
def Library.bare : Library where
  multibyte _ := .ascii
  answer? _ := none
  answer?_named _ _ := rfl

/-- A command that is done without a run. -/
def Response.text (d : Disk) (stdout : Bytes) : Response := ⟨0, stdout, [], d⟩

def complaintLine (c : Complaint) : Bytes := bytes "jsrestyle: " ++ c.message ++ [Byte.newline]

/-- A command that ends with a complaint, which is the last thing on the error stream. -/
def Response.failed (d : Disk) (stdout stderr : Bytes) (c : Complaint) : Response :=
  ⟨1, stdout, stderr ++ complaintLine c, d⟩

-- --------------------------------------------------------------------
-- What the flags ask for

/-- Colour is off unless it is asked for, as the output is no terminal. -/
def colour (i : Invocation) : Except Complaint Bool :=
  if i.colour = bytes "on" then .ok true
  else if i.colour = bytes "off" || i.colour = bytes "auto" then .ok false
  else .error (.colour i.colour)

/-- The settings before flags: those of the named file, else of the nearest one, else the standard
ones. -/
def baseSettings (d : Disk) (i : Invocation) : Except Failure Settings := do
  if i.config ≠ [] then Settings.load d i.config
  else
    let directory ← Settings.within (bytes "failed to get working directory") d.getwd
    match Settings.discover d directory with
    | .error .settingsNotFound => .ok Settings.standard
    | other => other

/-- Flags override the settings, which are then validated once more. -/
def settings (d : Disk) (i : Invocation) : Except Failure Settings := do
  let s ← baseSettings d i
  let s := { s with indent := i.indent.getD s.indent, encoding := i.encoding.getD s.encoding }
  Settings.within (bytes "invalid settings") s.validate
  return s

/-- The level of tracing. An output without a level means phases. -/
def traceLevel (i : Invocation) : Except Failure Trace.Level :=
  match i.traceLevel with
  | some name => Trace.Level.ofName name
  | none => .ok (if i.trace = [] then .off else .phase)

/-- Opens the trace. The format is looked at only if tracing is on. -/
def tracing (d : Disk) (i : Invocation) : Except Failure (Trace.Tracer × Trace.Sink × Disk) := do
  let level ← traceLevel i
  if level = .off then .ok (.nop, .memory, d)
  else
    let format ← Trace.Format.ofName i.traceFormat
    Settings.within (bytes "failed to create tracer") (Trace.openTrace d level format i.trace)

/-- What an invocation settles before its run. -/
structure Setup where
  style : ReportStyle
  settings : Settings
  width : Int
  encoding : Encoding
  tracer : Trace.Tracer
  sink : Trace.Sink
  /-- The disk on which the trace has been opened. -/
  disk : Disk

def prepare (library : Library) (d : Disk) (i : Invocation) : Except Complaint Setup := do
  if i.dryRun && i.check then .error .exclusiveModes
  else
    let colour ← colour i
    let settings ← (settings d i).mapError .failure
    let width ← (settings.indentWidth Settings.wordBits).mapError .failure
    let encoding ← (Encoding.ofName settings.encoding library.multibyte).mapError .failure
    let (tracer, sink, disk) ← (tracing d i).mapError .failure
    return ⟨⟨i.check, i.quiet, colour⟩, settings, width, encoding, tracer, sink, disk⟩

-- --------------------------------------------------------------------
-- The run

/-- Stops the run at an outcome that cannot be reported. -/
def reply (style : ReportStyle) (_ : Nat) (o : Outcome) : Reply :=
  match o.report style with
  | .ok _ => .proceed
  | .error f => ⟨false, some f⟩

def reportText (style : ReportStyle) (o : Outcome) : Bytes :=
  match o.report style with
  | .ok text => text
  | .error _ => []

def pending (outcomes : List Outcome) : Nat :=
  (outcomes.filter fun o => o.status = .wouldUpdate).length

/-- What a finished run leads to: the outcomes on the output, the trace and the timings on the error
stream, and a complaint if the run failed or a check found something. -/
def conclude (i : Invocation) (style : ReportStyle) (r : Run Watch) : Response :=
  let stdout := r.reported.flatMap (reportText style)
  let trace := match r.world.watch.sink with
    | .memory => r.world.watch.session.textFrom 0
    | _ => []
  let stderr := trace ++ (if i.timings then Timer.summaryIn r.world.watch.timer else [])
  match r.failure with
  | some f => .failed r.world.disk stdout stderr (.failure f)
  | none =>
    let n := pending r.reported
    if i.check && 0 < n then .failed r.world.disk stdout stderr (.pending n)
    else ⟨0, stdout, stderr, r.world.disk⟩

namespace Setup

def job (x : Setup) (i : Invocation) : Job Watch :=
  { observer := Watch.observer
    options :=
      { dryRun := i.dryRun || i.check
        encoding := x.encoding
        pipeline := Pipeline.ofWidth x.width
        extensions := x.settings.extensions }
    reporter := some (reply x.style) }

/-- The world in which the run starts. -/
def world (x : Setup) (now : Trace.Moment) (i : Invocation) : World Watch :=
  let timer := if i.timings then some Timer.empty else none
  ⟨x.disk, Watch.start (.begin x.tracer now) x.sink timer 0⟩

/-- Makes the run that an invocation asks for. -/
def run (x : Setup) (now : Trace.Moment) (i : Invocation) : Run Watch :=
  (x.job i).run (x.world now i) i.paths false

end Setup

def restyle (library : Library) (d : Disk) (now : Trace.Moment) (i : Invocation) :
    Except Complaint Response := do
  let x ← prepare library d i
  return conclude i x.style (x.run now i)

def execute (d : Disk) (now : Trace.Moment) (arguments : List Bytes) (library : Library := .bare) :
    Response :=
  match library.answer? arguments with
  | some (exit, stdout, stderr) => ⟨exit, stdout, stderr, d⟩
  | none =>
    match Invocation.ofArguments arguments with
    | .error fault => .failed d [] [] (.flag fault)
    | .ok i =>
      if i.help then .text d help
      else if i.version then .text d versionLine
      else if i.paths = [] then .failed d [] [] (.tooFewPaths i.paths.length)
      else match restyle library d now i with
        | .ok response => response
        | .error c => .failed d [] [] c

end Restyler.Cli
