import Restyler.Trace.Level
import Restyler.Trace.Moment

/-!
# Trace events and their texts

An event is written either as a line for people or as one JSON object on a line. The JSON form
leaves out members that are zero or empty, and escapes what is unsafe inside a web page.
-/

namespace Restyler.Trace

structure Event where
  time : Moment
  seq : Nat
  kind : Kind
  scope : Scope
  span : Nat
  parent : Nat
  name : Bytes
  detail : Bytes
  /-- Attributes in increasing order of their keys. -/
  extra : List (Bytes × Bytes)
  deriving DecidableEq

inductive Format where
  | auto
  | text
  | ndjson
  deriving DecidableEq

def Format.code : Format → Nat
  | .auto => 0
  | .text => 1
  | .ndjson => 2

/-- A code without a format of its own stands for text. -/
def Format.ofCode : Nat → Format
  | 0 => .auto
  | 2 => .ndjson
  | _ => .text

def Format.ofName (name : Bytes) : Except Failure Format :=
  let n := Text.lower name
  if n = [] || n = bytes "auto" then .ok .auto
  else if n = bytes "text" then .ok .text
  else if n = bytes "ndjson" || n = bytes "json" then .ok .ndjson
  else .error (.unknownFormat name)

-- --------------------------------------------------------------------
-- Text

def Scope.indent (s : Scope) : Bytes :=
  match s.rank with
  | 2 => bytes "  "
  | 3 => bytes "    "
  | _ => []

def Kind.mark (k : Kind) : Bytes :=
  match k.code with
  | 1 => bytes "→ "
  | 2 => bytes "← "
  | 3 => bytes "• "
  | 4 => bytes "! "
  | _ => []

def extraText (extra : List (Bytes × Bytes)) : Bytes :=
  if extra = [] then []
  else
    bytes " \x7b" ++ joinWith (bytes ", ") (extra.map fun (k, v) => k ++ bytes "=" ++ v) ++
      bytes "\x7d"

def Event.text (e : Event) : Bytes :=
  bytes "[" ++ padded 6 e.seq ++ bytes "] " ++ e.scope.indent ++ e.kind.mark ++ e.name ++
    (if e.detail = [] then [] else bytes " (" ++ e.detail ++ bytes ")") ++
    extraText e.extra ++ [Byte.newline]

-- --------------------------------------------------------------------
-- JSON

def jsonChar (c : Char) : Bytes :=
  let n := c.toNat
  if n = 0x22 then bytes "\\\""
  else if n = 0x5C then bytes "\\\\"
  else if n = 0x08 then bytes "\\b"
  else if n = 0x0C then bytes "\\f"
  else if n = 0x0A then bytes "\\n"
  else if n = 0x0D then bytes "\\r"
  else if n = 0x09 then bytes "\\t"
  else if n < 0x20 ∨ n = 0x3C ∨ n = 0x3E ∨ n = 0x26 ∨ n = 0x2028 ∨ n = 0x2029 then
    bytes "\\u" ++ hex 4 n
  else encodeChar c

/-- A JSON string. A stray byte is written as the character U+FFFD, not as an escape for it. -/
def jsonString (s : Bytes) : Bytes :=
  Byte.quote :: (Utf8.chars s).flatMap jsonChar ++ [Byte.quote]

def jsonMember (key : Bytes) (value : Bytes) : Bytes := jsonString key ++ bytes ":" ++ value

def jsonObject (members : List Bytes) : Bytes :=
  bytes "\x7b" ++ joinWith (bytes ",") members ++ bytes "\x7d"

def Event.jsonMembers (e : Event) : List Bytes :=
  [jsonMember (bytes "time") (jsonString e.time.text),
   jsonMember (bytes "seq") (decimal e.seq),
   jsonMember (bytes "kind") (jsonString e.kind.name),
   jsonMember (bytes "scope") (jsonString e.scope.name)] ++
  (if e.span = 0 then [] else [jsonMember (bytes "span_id") (decimal e.span)]) ++
  (if e.parent = 0 then [] else [jsonMember (bytes "parent_id") (decimal e.parent)]) ++
  [jsonMember (bytes "name") (jsonString e.name)] ++
  (if e.detail = [] then [] else [jsonMember (bytes "detail") (jsonString e.detail)]) ++
  (if e.extra = [] then []
   else
    [jsonMember (bytes "extra") (jsonObject (e.extra.map fun (k, v) => jsonMember k (jsonString v)))])

def Event.json (e : Event) : Bytes := jsonObject e.jsonMembers ++ [Byte.newline]

def Event.render (e : Event) : Format → Bytes
  | .ndjson => e.json
  | _ => e.text

end Restyler.Trace
