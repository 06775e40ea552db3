import Restyler.Failure
import Restyler.Text.Fold

/-!
# Levels, kinds and scopes of trace events

A level decides by kind and scope which events are emitted. Errors pass every level that is on;
other events pass from the level that shows their scope. Values without a name are allowed, print
as `unknown`, and an unnamed level emits nothing.
-/

namespace Restyler.Trace

structure Level where
  rank : Nat
  deriving DecidableEq

namespace Level

def off : Level := ⟨0⟩
def error : Level := ⟨1⟩
def phase : Level := ⟨2⟩
def detail : Level := ⟨3⟩
def debug : Level := ⟨4⟩

def name (l : Level) : Bytes :=
  match l.rank with
  | 0 => bytes "off"
  | 1 => bytes "error"
  | 2 => bytes "phase"
  | 3 => bytes "detail"
  | 4 => bytes "debug"
  | _ => bytes "unknown"

def named : List Level := [off, error, phase, detail, debug]

def ofName (name : Bytes) : Except Failure Level :=
  match named.find? fun l => l.name = Text.lower name with
  | some l => .ok l
  | none => .error (.unknownLevel name)

end Level

structure Kind where
  code : Nat
  deriving DecidableEq

namespace Kind

def start : Kind := ⟨1⟩
def finish : Kind := ⟨2⟩
def point : Kind := ⟨3⟩
def error : Kind := ⟨4⟩

def name (k : Kind) : Bytes :=
  match k.code with
  | 1 => bytes "begin"
  | 2 => bytes "end"
  | 3 => bytes "point"
  | 4 => bytes "error"
  | _ => bytes "unknown"

end Kind

/-- How large the thing is that an event is about; smaller ranks are coarser. -/
structure Scope where
  rank : Nat
  deriving DecidableEq

namespace Scope

def run : Scope := ⟨1⟩
def file : Scope := ⟨2⟩
def step : Scope := ⟨3⟩

def name (s : Scope) : Bytes :=
  match s.rank with
  | 1 => bytes "run"
  | 2 => bytes "file"
  | 3 => bytes "step"
  | _ => bytes "unknown"

end Scope

def Level.emits (l : Level) (kind : Kind) (scope : Scope) : Bool :=
  match l.rank with
  | 1 => kind = .error
  | 2 => kind = .error || scope.rank ≤ Scope.run.rank
  | 3 => kind = .error || scope.rank ≤ Scope.file.rank
  | 4 => true
  | _ => false

end Restyler.Trace
