import Restyler.Utf8

/-!
# Phase timings

A timer adds up the time of named phases. Each start gives a fresh handle, and only the first
finish of a handle counts. Phases are reported in the order of their first start.
-/

namespace Restyler

structure PhaseTotal where
  name : Bytes
  nanoseconds : Nat
  count : Nat
  deriving DecidableEq

structure OpenPhase where
  handle : Nat
  name : Bytes
  started : Nat
  deriving DecidableEq

structure Timer where
  phases : List PhaseTotal
  running : List OpenPhase
  handles : Nat
  deriving DecidableEq

namespace Timer

def empty : Timer := ⟨[], [], 0⟩

/-- Starts a phase at clock reading `now`; the new handle is the number of starts so far. -/
def start (t : Timer) (now : Nat) (name : Bytes) : Timer × Nat :=
  let handle := t.handles + 1
  let phases := if t.phases.any (·.name = name) then t.phases else t.phases ++ [⟨name, 0, 0⟩]
  (⟨phases, t.running ++ [⟨handle, name, now⟩], handle⟩, handle)

/-- Finishes the measurement of `handle`. A handle that is not running changes nothing. -/
def finish (t : Timer) (now : Nat) (handle : Int) : Timer :=
  match t.running.find? fun o => (o.handle : Int) = handle with
  | none => t
  | some o =>
    { t with
      phases := t.phases.map fun p =>
        if p.name = o.name then ⟨p.name, p.nanoseconds + (now - o.started), p.count + 1⟩ else p
      running := t.running.filter fun r => r.handle ≠ o.handle }

def total (t : Timer) : Nat := t.phases.foldl (fun sum p => sum + p.nanoseconds) 0

/-- Milliseconds with two places, a half going to the even neighbour, seven bytes wide. -/
def millisText (nanoseconds : Nat) : Bytes :=
  let unit := 10000
  let low := nanoseconds / unit
  let rest := nanoseconds % unit
  let hundredths := if 2 * rest > unit || (2 * rest = unit && low % 2 = 1) then low + 1 else low
  padLeft Byte.space 7
    (decimal (hundredths / 100) ++ bytes "." ++ padLeft 0x30 2 (decimal (hundredths % 100)))

/-- Pads to twelve symbols. -/
def nameText (name : Bytes) : Bytes := name ++ List.replicate (12 - Utf8.length name) Byte.space

def row (name : Bytes) (nanoseconds : Nat) (tail : Bytes) : Bytes :=
  bytes "  " ++ nameText name ++ bytes " " ++ millisText nanoseconds ++ bytes " ms" ++ tail ++
    [Byte.newline]

def summary (t : Timer) : Bytes :=
  bytes "timings:\n" ++
    (t.phases.flatMap fun p =>
      row p.name p.nanoseconds (bytes "  (" ++ decimal p.count ++ bytes ")")) ++
    row (bytes "total") t.total []

-- --------------------------------------------------------------------
-- Timing may be off: without a timer nothing is recorded.

def startIn (t : Option Timer) (now : Nat) (name : Bytes) : Option Timer × Int :=
  match t with
  | none => (none, -1)
  | some t =>
    let (t, handle) := t.start now name
    (some t, handle)

def finishIn (t : Option Timer) (now : Nat) (handle : Int) : Option Timer :=
  t.map fun t => t.finish now handle

def phasesIn (t : Option Timer) : List PhaseTotal :=
  match t with
  | none => []
  | some t => t.phases

def summaryIn (t : Option Timer) : Bytes := (t.getD empty).summary

end Timer

end Restyler
