import Restyler.Trace.Session

/-!
# The context of an operation

Which tracer records an operation and which span it belongs to. In the background there is neither.
-/

namespace Restyler.Trace

structure Context where
  tracer : Tracer
  span : Nat
  deriving DecidableEq

namespace Context

def background : Context := ⟨.nop, 0⟩

def withTracer (c : Context) (t : Option Tracer) : Context := { c with tracer := t.getD .nop }

def withSpan (c : Context) (s : Span) : Context := { c with span := s.id }

end Context

end Restyler.Trace
