import Restyler.Ansi
import Restyler.Diff.Hunk

/-!
# Unified diffs

The text of a diff in the unified format, and the same text in colour. A last line without newline
is followed directly by the next line of the diff. Colours are chosen by the first bytes of each
line of the finished text.
-/

namespace Restyler.Diff

/-- A line range: one number for a single line, and for no line the number of the line before. -/
def rangeText (start length : Nat) : Bytes :=
  if length = 1 then decimal (start + 1)
  else
    decimal (if length = 0 then start else start + 1) ++ bytes "," ++ decimal length

def Hunk.header (h : Hunk) : Bytes :=
  bytes "@@ -" ++ rangeText h.before h.beforeLines.length ++
    bytes " +" ++ rangeText h.after h.afterLines.length ++ bytes " @@\n"

def marked (mark : String) (ls : List Bytes) : Bytes := ls.flatMap fun l => bytes mark ++ l

def Op.text : Op → Bytes
  | .keep ls => marked " " ls
  | .change removed added => marked "-" removed ++ marked "+" added

def Hunk.text (h : Hunk) : Bytes := h.header ++ h.body.flatMap Op.text

def fileHeader : Bytes := bytes "--- before\n+++ after\n"

/-- Empty exactly for equal texts. -/
def unified (before after : Bytes) : Bytes :=
  if before = after then []
  else fileHeader ++ (hunks (script (terminated before) (terminated after))).flatMap Hunk.text

/-- The style of a line of a diff, given without its newline. -/
def styleOf? (line : Bytes) : Option Ansi.Style :=
  if (bytes "--- ").isPrefixOf line || (bytes "+++ ").isPrefixOf line then some Ansi.bold
  else if (bytes "@@").isPrefixOf line then some Ansi.cyan
  else if (bytes "-").isPrefixOf line then some Ansi.red
  else if (bytes "+").isPrefixOf line then some Ansi.green
  else none

/-- Colours a line; its newline stays outside. -/
def paintLine (line : Bytes) : Bytes :=
  let body := if line.getLast? = some Byte.newline then line.dropLast else line
  match styleOf? body with
  | none => line
  | some style =>
    style.paint body ++ (if line.getLast? = some Byte.newline then [Byte.newline] else [])

def coloured (before after : Bytes) : Bytes :=
  (terminated (unified before after)).flatMap paintLine

def rendered (colour : Bool) (before after : Bytes) : Bytes :=
  if colour then coloured before after else unified before after

end Restyler.Diff
