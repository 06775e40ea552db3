import Restyler.Disk.Removal
import Restyler.Main
import Restyler.Trace.Context
import Restyler.Proofs.Lines
import Restyler.Proofs.Quotes
import Restyler.Proofs.Respelled
import Restyler.Proofs.Keywords
import Restyler.Proofs.Conditionals
import Restyler.Proofs.Pipeline
import Restyler.Proofs.Literals
import Restyler.Proofs.Disk
import Restyler.Proofs.Run
import Restyler.Proofs.Content
import Restyler.Proofs.Matching
import Restyler.Proofs.Patch
import Restyler.Proofs.Utf8
import Restyler.Proofs.Utf16
import Restyler.Proofs.Codecs
import Restyler.Proofs.Updates
import Restyler.Proofs.Walk
import Restyler.Proofs.DryRun
import Restyler.Proofs.RoundTrip
import Restyler.Proofs.WriteBack
import Restyler.Proofs.Moves
import Restyler.Proofs.Selection
import Restyler.Proofs.Interruption
import Restyler.Proofs.Search
import Restyler.Proofs.Spelling
import Restyler.Proofs.Nesting
import Restyler.Proofs.Notes
import Restyler.Proofs.Tracing
import Restyler.Proofs.Observers
import Restyler.Proofs.Filtering
import Restyler.Proofs.Marks
import Restyler.Proofs.Precedence
import Restyler.Proofs.ReadOnly
import Restyler.Proofs.Gate
import Restyler.Proofs.Splitting
import Restyler.Proofs.FixedPoints
import Restyler.Proofs.Unchanged
import Restyler.Proofs.Commuting
import Restyler.Proofs.Parentheses
import Restyler.Proofs.ReadBack
import Restyler.Proofs.Saving
import Restyler.Proofs.Ascent
import Restyler.Proofs.Extension
import Restyler.Proofs.Expansion
import Restyler.Proofs.Accepted
import Restyler.Proofs.BlankEncoding
import Restyler.Proofs.Painting
import Restyler.Proofs.Roles
import Restyler.Proofs.Timing
import Restyler.Proofs.TraceLines
