import Restyler.Text.Quoted

/-!
# Failures

Every way in which an operation of the library can fail, as a cause. A failure that is met while
something larger is done is wrapped with what that was; `Failure.cause` looks through the wrapping,
and `Failure.message` is the only place where wording is decided.
-/

namespace Restyler

/-- What the file system answers when it refuses a call. -/
inductive Errno where
  | noEntry
  | notDirectory
  | isDirectory
  | nameTooLong
  | invalidArgument
  | accessDenied
  | alreadyExists
  | notEmpty
  | closed
  deriving DecidableEq

def Errno.message : Errno → Bytes
  | .noEntry => bytes "no such file or directory"
  | .notDirectory => bytes "not a directory"
  | .isDirectory => bytes "is a directory"
  | .nameTooLong => bytes "file name too long"
  | .invalidArgument => bytes "invalid argument"
  | .accessDenied => bytes "permission denied"
  | .alreadyExists => bytes "file exists"
  | .notEmpty => bytes "directory not empty"
  | .closed => bytes "file already closed"

/-- A refused call, with the path that it was given. -/
structure OsError where
  call : String
  path : Bytes
  errno : Errno
  deriving DecidableEq

def OsError.message (e : OsError) : Bytes :=
  bytes e.call ++ bytes " " ++ e.path ++ bytes ": " ++ e.errno.message

/-- Why a settings document is refused: its text is not TOML, it defines a key twice, or a value is
not of the kind that its key takes. -/
inductive TomlError where
  | malformed
  | redefined (key : Bytes)
  | mismatch (key : Bytes)
  deriving DecidableEq

def TomlError.message : TomlError → Bytes
  | .malformed => bytes "toml: the document is malformed"
  | .redefined key => bytes "toml: key " ++ key ++ bytes " is already defined"
  | .mismatch key => bytes "toml: key " ++ key ++ bytes " takes a value of another type"

inductive Failure where
  | noFiles
  | canceled
  /-- An error of the reporter's own. -/
  | stopped (message : Bytes)
  /-- Asks a walk to leave out the rest of a directory. -/
  | skipDirectory
  /-- Asks a walk to leave out all that is to come. -/
  | skipAll
  | os (e : OsError)
  | refused (e : Errno)
  | directory
  | unexpectedStatus
  | sink (message : Bytes)
  | invalidUtf8
  | unencodable
  | unknownEncoding (name : Bytes)
  | unsupportedEncoding (name : Bytes)
  | settingsNotFound
  | toml (e : TomlError)
  | unknownKey (key : Bytes)
  | blankEncoding
  | indentRange (indent : Int)
  | outOfRange
  | noExtensions
  | extensionForm (extension : Bytes)
  | unknownLevel (name : Bytes)
  | unknownFormat (name : Bytes)
  | within (context : Bytes) (cause : Failure)
  deriving DecidableEq

/-- A text stands for the error that says it. -/
instance : Coe Bytes Failure := ⟨.stopped⟩

namespace Failure

/-- The failure at the bottom of the wrapping. -/
def cause : Failure → Failure
  | .within _ f => f.cause
  | f => f

/-- The widest indentation that settings may ask for. -/
def maxIndent : Nat := 16

def message : Failure → Bytes
  | .noFiles => bytes "restyle: no source files found"
  | .canceled => bytes "context canceled"
  | .stopped m => m
  | .skipDirectory => bytes "skip this directory"
  | .skipAll => bytes "skip everything and stop the walk"
  | .os e => e.message
  | .refused e => e.message
  | .directory => bytes "is a directory"
  | .unexpectedStatus => bytes "unexpected status unknown"
  | .sink m => m
  | .invalidUtf8 => bytes "invalid UTF-8"
  | .unencodable => bytes "encoding: rune not supported by encoding."
  | .unknownEncoding name =>
    bytes "encoding " ++ Text.quoted name ++ bytes ": ianaindex: invalid encoding name"
  | .unsupportedEncoding name => bytes "encoding " ++ Text.quoted name ++ bytes ": unsupported"
  | .settingsNotFound => bytes "no jsrestyle.toml found"
  | .toml e => e.message
  | .unknownKey key => bytes "unknown key " ++ Text.quoted key
  | .blankEncoding => bytes "[files].encoding is empty"
  | .indentRange n =>
    bytes "[style].indent must be between 1 and " ++ decimal maxIndent ++ bytes ", got " ++
      decimalInt n
  | .outOfRange => bytes "out of range"
  | .noExtensions => bytes "[files].extensions must not be empty"
  | .extensionForm e =>
    bytes "[files].extensions: " ++ Text.quoted e ++ bytes " must start with '.'"
  | .unknownLevel name =>
    bytes "invalid trace level: " ++ Text.quoted name ++
      bytes " (expected: off|error|phase|detail|debug)"
  | .unknownFormat name =>
    bytes "invalid trace format: " ++ Text.quoted name ++ bytes " (expected: auto|text|ndjson)"
  | .within context f => context ++ bytes ": " ++ f.message

end Failure

end Restyler
