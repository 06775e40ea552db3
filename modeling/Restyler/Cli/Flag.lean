import Restyler.Cli.Number
import Restyler.Text.Quoted

/-!
# The command line

Flags and paths in any order. A flag is written with two dashes; a value follows an equals sign or,
for a flag that needs one, as the next argument. Switches have one-letter forms that can be written
together after one dash. After two dashes alone everything is a path, and one dash alone is a path.
The last value of a flag counts, and the first fault is reported.
-/

namespace Restyler.Cli

inductive Flag where
  | check
  | colour
  | config
  | dryRun
  | encoding
  | help
  | indent
  | quiet
  | timings
  | trace
  | traceFormat
  | traceLevel
  | version
  deriving DecidableEq

namespace Flag

def all : List Flag :=
  [check, colour, config, dryRun, encoding, help, indent, quiet, timings, trace, traceFormat,
    traceLevel, version]

def name : Flag → Bytes
  | check => bytes "check"
  | colour => bytes "color"
  | config => bytes "config"
  | dryRun => bytes "dry-run"
  | encoding => bytes "encoding"
  | help => bytes "help"
  | indent => bytes "indent"
  | quiet => bytes "quiet"
  | timings => bytes "timings"
  | trace => bytes "trace"
  | traceFormat => bytes "trace-format"
  | traceLevel => bytes "trace-level"
  | version => bytes "version"

def letter? : Flag → Option UInt8
  | dryRun => some 0x6E
  | help => some 0x68
  | version => some 0x76
  | _ => none

/-- Switches need no value. -/
def isSwitch : Flag → Bool
  | check | dryRun | help | quiet | timings | version => true
  | _ => false

def ofName? (name : Bytes) : Option Flag := all.find? fun f => f.name = name

def ofLetter? (letter : UInt8) : Option Flag := all.find? fun f => f.letter? = some letter

/-- The flag in a message, with its letter if it has one. -/
def shown (f : Flag) : Bytes :=
  match f.letter? with
  | some l => bytes "-" ++ [l] ++ bytes ", --" ++ f.name
  | none => bytes "--" ++ f.name

end Flag

inductive FlagFault where
  | badSyntax (argument : Bytes)
  | unknownName (name : Bytes)
  | unknownLetter (letter : UInt8) (rest : Bytes)
  | missingValue (argument : Bytes)
  | notSwitch (flag : Flag) (value : Bytes)
  | notNumber (flag : Flag) (value : Bytes) (fault : NumberFault)
  deriving DecidableEq

/-- What a value is refused with. -/
def refusal (flag : Flag) (value : Bytes) (reader : String) (reason : Bytes) : Bytes :=
  bytes "invalid argument " ++ Text.quoted value ++ bytes " for " ++ Text.quoted flag.shown ++
    bytes " flag: strconv." ++ bytes reader ++ bytes ": parsing " ++ Text.quoted value ++
    bytes ": " ++ reason

/-- The character that a message shows for an unknown letter: the first byte of the letter's UTF-8
form, read as a code point. An ASCII letter is shown as it is. -/
def shownLetter (letter : UInt8) : Char :=
  Char.ofNat ((encodeChar (Char.ofNat letter.toNat)).headD letter).toNat

def FlagFault.message : FlagFault → Bytes
  | .badSyntax a => bytes "bad flag syntax: " ++ a
  | .unknownName n => bytes "unknown flag: --" ++ n
  | .unknownLetter l rest =>
    bytes "unknown shorthand flag: " ++ Text.quotedChar (shownLetter l) ++ bytes " in -" ++ rest
  | .missingValue a => bytes "flag needs an argument: " ++ a
  | .notSwitch f v => refusal f v "ParseBool" NumberFault.malformed.message
  | .notNumber f v fault => refusal f v "ParseInt" fault.message

/-- What a command line asks for. An option is `none` if its flag was not given. -/
structure Invocation where
  check : Bool
  dryRun : Bool
  help : Bool
  quiet : Bool
  timings : Bool
  version : Bool
  colour : Bytes
  config : Bytes
  encoding : Option Bytes
  indent : Option Int
  trace : Bytes
  traceFormat : Bytes
  traceLevel : Option Bytes
  paths : List Bytes
  deriving DecidableEq

namespace Invocation

def empty : Invocation :=
  { check := false, dryRun := false, help := false, quiet := false, timings := false,
    version := false, colour := bytes "auto", config := [], encoding := none, indent := none,
    trace := [], traceFormat := bytes "auto", traceLevel := none, paths := [] }

def setSwitch (i : Invocation) (f : Flag) (on : Bool) : Invocation :=
  match f with
  | .check => { i with check := on }
  | .dryRun => { i with dryRun := on }
  | .help => { i with help := on }
  | .quiet => { i with quiet := on }
  | .timings => { i with timings := on }
  | .version => { i with version := on }
  | _ => i

def setText (i : Invocation) (f : Flag) (value : Bytes) : Invocation :=
  match f with
  | .colour => { i with colour := value }
  | .config => { i with config := value }
  | .encoding => { i with encoding := some value }
  | .trace => { i with trace := value }
  | .traceFormat => { i with traceFormat := value }
  | .traceLevel => { i with traceLevel := some value }
  | _ => i

def set (i : Invocation) (f : Flag) (value : Bytes) : Except FlagFault Invocation :=
  if f.isSwitch then
    match switch? value with
    | some on => .ok (i.setSwitch f on)
    | none => .error (.notSwitch f value)
  else if f = .indent then
    match wholeNumber value with
    | .ok n => .ok { i with indent := some n }
    | .error fault => .error (.notNumber f value fault)
  else .ok (i.setText f value)

def addPaths (i : Invocation) (paths : List Bytes) : Invocation :=
  { i with paths := i.paths ++ paths }

def setOn : Bytes := bytes "true"

/-- Letters after one dash. A value can be given to the last of them; `test.` and what follows it is
left aside. -/
def setLetters (i : Invocation) : Bytes → Except FlagFault Invocation
  | [] => .ok i
  | l :: rest =>
    if (bytes "test.").isPrefixOf (l :: rest) then .ok i
    else match Flag.ofLetter? l with
      | none => .error (.unknownLetter l (l :: rest))
      | some f =>
        if rest.head? = some Byte.equals ∧ 1 < rest.length then i.set f (rest.drop 1)
        else match i.set f setOn with
          | .ok i => i.setLetters rest
          | .error fault => .error fault

/-- The name of a long flag, and its value if one is attached. -/
def splitLong (body : Bytes) : Bytes × Option Bytes :=
  match cut [Byte.equals] body with
  | some (name, value) => (name, some value)
  | none => (body, none)

def isDashed (s : Bytes) : Bool := s.head? = some Byte.minus && 1 < s.length
def isLong (s : Bytes) : Bool := (bytes "--").isPrefixOf s

/-- Reads the arguments from left to right. -/
def read (i : Invocation) : List Bytes → Except FlagFault Invocation
  | [] => .ok i
  | s :: rest =>
    if !isDashed s then (i.addPaths [s]).read rest
    else if s = bytes "--" then .ok (i.addPaths rest)
    else if !isLong s then
      match i.setLetters (s.drop 1) with
      | .ok i => i.read rest
      | .error fault => .error fault
    else
      let (name, attached) := splitLong (s.drop 2)
      if name = [] ∨ name.head? = some Byte.minus then .error (.badSyntax s)
      else match Flag.ofName? name with
        | none => .error (.unknownName name)
        | some f =>
          match attached with
          | some value =>
            match i.set f value with
            | .ok i => i.read rest
            | .error fault => .error fault
          | none =>
            if f.isSwitch then
              match i.set f setOn with
              | .ok i => i.read rest
              | .error fault => .error fault
            else match rest with
              | [] => .error (.missingValue s)
              | value :: rest =>
                match i.set f value with
                | .ok i => i.read rest
                | .error fault => .error fault

def ofArguments (arguments : List Bytes) : Except FlagFault Invocation := empty.read arguments

end Invocation

end Restyler.Cli
