import Restyler.Settings.Basic
import Restyler.Toml.Document

/-!
# Settings from a document

A document overlays the settings that it is read on top of: a field it sets takes the document's
value and every other field stays. Table and key names count without regard to case. A document that
names anything else is refused.
-/

namespace Restyler

namespace Settings

/-- What a document may name. -/
inductive Field where
  | style
  | indent
  | files
  | encoding
  | extensions
  deriving DecidableEq

def Field.ofKey? : Toml.Key → Option Field
  | [table] =>
    if Text.sameFold table (bytes "style") then some .style
    else if Text.sameFold table (bytes "files") then some .files
    else none
  | [table, name] =>
    if Text.sameFold table (bytes "style") then
      if Text.sameFold name (bytes "indent") then some .indent else none
    else if Text.sameFold table (bytes "files") then
      if Text.sameFold name (bytes "encoding") then some .encoding
      else if Text.sameFold name (bytes "extensions") then some .extensions
      else none
    else none
  | _ => none

/-- The strings of an array that holds nothing else. -/
def strings? : Toml.Values → Option (List Bytes)
  | .nil => some []
  | .cons (.string s) vs => (strings? vs).map (s :: ·)
  | .cons _ _ => none

/-- Sets a field; `none` if the entry is not of the kind that the field takes. -/
def Field.set? (s : Settings) : Field → Toml.Entry → Option Settings
  | .style, .table => some s
  | .files, .table => some s
  | .indent, .leaf (.integer n) => some { s with indent := n }
  | .encoding, .leaf (.string e) => some { s with encoding := e }
  | .extensions, .leaf (.array vs) => (strings? vs).map fun es => { s with extensions := es }
  | _, _ => none

def setEntry (s : Settings) (entry : Toml.Key × Toml.Entry) : Except Failure Settings :=
  match Field.ofKey? entry.1 with
  | none => .ok s
  | some field =>
    match field.set? s entry.2 with
    | some s => .ok s
    | none => .error (.toml (.mismatch entry.1.text))

/-- The first key of a document that no setting has taken. -/
def unknownKey? (d : Toml.Document) : Option Toml.Key :=
  d.listed.find? fun k => !((Field.ofKey? k).isSome && (d.get? k).isSome)

def parseContext : Bytes := bytes "failed to parse TOML"

def encodingKey : Toml.Key := [bytes "files", bytes "encoding"]

/-- Overlays a document. Faults in its text come first, then values of the wrong kind, then unknown
keys, then an encoding that is blank under its exact name. -/
def overlay (s : Settings) (document : Bytes) : Except Failure Settings := do
  let d ← match Toml.Document.read document with
    | .ok d => .ok d
    | .error e => .error (.within parseContext (.toml e))
  let s ← match d.entries.foldlM setEntry s with
    | .ok s => .ok s
    | .error f => .error (.within parseContext f)
  match unknownKey? d with
  | some k => .error (.unknownKey k.text)
  | none =>
    if (d.get? encodingKey).isSome && Text.trim s.encoding = [] then .error .blankEncoding
    else .ok s

end Settings

end Restyler
