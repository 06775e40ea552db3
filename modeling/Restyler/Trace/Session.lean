import Restyler.Assoc
import Restyler.Trace.Event

/-!
# Tracing sessions

A session numbers events and spans and keeps the events that its tracer let through. A span is
inert when its level leaves it out, and nothing that is done with an inert span shows. Numbers are
given to events before the level is asked, so a trace can have gaps.
-/

namespace Restyler.Trace

/-- A tracer that records nothing, or one that writes what its level lets through. -/
inductive Tracer where
  | nop
  | stream (level : Level) (format : Format)
  deriving DecidableEq

namespace Tracer

def level : Tracer → Level
  | .nop => .off
  | .stream l _ => l

def format : Tracer → Format
  | .nop => .text
  | .stream _ f => f

def enabled (t : Tracer) : Bool := 0 < t.level.rank

def emits : Tracer → Kind → Scope → Bool
  | .nop, _, _ => false
  | .stream l _, kind, scope => l.emits kind scope

/-- The format for an output path: JSON for the suffixes of JSON lines, text otherwise. -/
def chooseFormat (path : Bytes) : Format → Format
  | .auto =>
    if (bytes ".ndjson").isSuffixOf path || (bytes ".jsonl").isSuffixOf path then .ndjson else .text
  | f => f

/-- The tracer for a level and an output path. -/
def new (level : Level) (format : Format) (path : Bytes) : Tracer :=
  if level = .off then .nop else .stream level (chooseFormat path format)

end Tracer

structure Session where
  tracer : Tracer
  now : Moment
  seq : Nat
  spans : Nat
  events : List Event
  deriving DecidableEq

/-- An operation that has begun. -/
structure Span where
  inert : Bool
  id : Nat
  parent : Nat
  scope : Scope
  name : Bytes
  extra : List (Bytes × Bytes)
  deriving DecidableEq

def Span.none : Span := ⟨true, 0, 0, ⟨0⟩, [], []⟩

/-- Sets an attribute of the event that will finish the span. -/
def Span.withExtra (s : Span) (key value : Bytes) : Span :=
  if s.inert then s else { s with extra := Assoc.insert key value s.extra }

namespace Session

def begin (tracer : Tracer) (now : Moment) : Session := ⟨tracer, now, 0, 0, []⟩

def nextSeq (t : Session) : Session := { t with seq := t.seq + 1 }
def nextSpan (t : Session) : Session := { t with spans := t.spans + 1 }

/-- Records an event if the level lets it through, and gives it a number if it has none. -/
def emit (t : Session) (e : Event) : Session × Event :=
  if t.tracer.emits e.kind e.scope then
    if e.seq = 0 then
      let t := t.nextSeq
      let e := { e with seq := t.seq }
      ({ t with events := t.events ++ [e] }, e)
    else ({ t with events := t.events ++ [e] }, e)
  else (t, e)

/-- Emits an event under the next number. -/
def record (t : Session) (kind : Kind) (scope : Scope) (span parent : Nat) (name detail : Bytes)
    (extra : List (Bytes × Bytes)) : Session :=
  let t := t.nextSeq
  (t.emit ⟨t.now, t.seq, kind, scope, span, parent, name, detail, extra⟩).1

def startSpan (t : Session) (scope : Scope) (name : Bytes) (parent : Nat) : Session × Span :=
  if t.tracer.enabled && t.tracer.emits .start scope then
    let t := t.nextSpan
    (t.record .start scope t.spans parent name [] [],
      ⟨false, t.spans, parent, scope, name, []⟩)
  else (t, .none)

def finishSpan (t : Session) (s : Span) (detail : Bytes) : Session :=
  if s.inert || !t.tracer.enabled then t
  else t.record .finish s.scope s.id s.parent s.name detail s.extra

def point (t : Session) (scope : Scope) (name detail : Bytes) (parent : Nat) : Session :=
  if t.tracer.enabled then t.record .point scope 0 parent name detail [] else t

def error (t : Session) (scope : Scope) (name message : Bytes) (parent : Nat) : Session :=
  if t.tracer.enabled then t.record .error scope 0 parent name message [] else t

/-- The text of the events from the `n`-th on. -/
def textFrom (t : Session) (n : Nat) : Bytes :=
  (t.events.drop n).flatMap fun e => e.render t.tracer.format

end Session

end Restyler.Trace
