import Restyler.Diff.Unified
import Restyler.Failure

/-!
# Outcomes and their report

What a run did to a file, and the text that reports it: one status line, and in a dry run the diff
of the change that would be made.
-/

namespace Restyler

inductive Status where
  | unchanged
  | updated
  | wouldUpdate
  | unknown
  deriving DecidableEq

def Status.name : Status → Bytes
  | .unchanged => bytes "unchanged"
  | .updated => bytes "updated"
  | .wouldUpdate => bytes "would-update"
  | .unknown => bytes "unknown"

structure Outcome where
  path : Bytes
  status : Status
  before : Bytes
  after : Bytes
  deriving DecidableEq

def Outcome.changed (o : Outcome) : Bool := o.status ≠ .unchanged

/-- How outcomes are reported: checking shows no diff, and quiet leaves out unchanged files. -/
structure ReportStyle where
  check : Bool
  quiet : Bool
  colour : Bool
  deriving DecidableEq

def statusLine (path : Bytes) (remark : String) : Bytes :=
  bytes "jsrestyle '" ++ path ++ bytes "' (" ++ bytes remark ++ bytes ")\n"

def Outcome.report (style : ReportStyle) (o : Outcome) : Except Failure Bytes :=
  match o.status with
  | .unchanged => .ok (if style.quiet then [] else statusLine o.path "no change")
  | .updated => .ok (statusLine o.path "updated")
  | .wouldUpdate =>
    .ok (if style.check then statusLine o.path "would be updated"
      else
        statusLine o.path "would be updated, dry-run" ++
          Diff.rendered style.colour o.before o.after ++ [Byte.newline])
  | .unknown => .error (.within o.path .unexpectedStatus)

end Restyler
