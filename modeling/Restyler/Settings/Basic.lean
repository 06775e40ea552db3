import Restyler.Encoding.Basic

/-!
# Settings

What a run can be told about the files of a project. Valid settings have an indentation of one to
sixteen spaces, at least one file extension, each a dot and something after it, and an encoding that
resolves.
-/

namespace Restyler

structure Settings where
  /-- The file that the settings were read from, if any. -/
  path : Bytes
  indent : Int
  encoding : Bytes
  extensions : List Bytes
  deriving DecidableEq

namespace Settings

def standard : Settings := ⟨[], 2, bytes "utf-8", [bytes ".js"]⟩

def isExtension (e : Bytes) : Bool := (bytes ".").isPrefixOf e && 2 ≤ e.length

/-- Reports the first fault: the indentation, then the extensions, then the encoding. -/
def validate (s : Settings) : Except Failure Unit :=
  if s.indent < 1 ∨ Failure.maxIndent < s.indent then .error (.indentRange s.indent)
  else if s.extensions = [] then .error .noExtensions
  else match s.extensions.find? fun e => !isExtension e with
    | some e => .error (.extensionForm e)
    | none =>
      match Encoding.ofName s.encoding with
      | .ok _ => .ok ()
      | .error f => .error (.within (bytes "[files].encoding") f)

/-- How many bits a machine word has. -/
def wordBits : Nat := 64

/-- The indentation as a signed word of so many bits, if that holds it. -/
def indentWidth (s : Settings) (bits : Nat) : Except Failure Int :=
  let word := BitVec.ofInt bits s.indent
  if word.toInt = s.indent then .ok word.toInt else .error .outOfRange

end Settings

end Restyler
