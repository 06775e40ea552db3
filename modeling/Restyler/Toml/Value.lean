import Restyler.Failure
import Restyler.Utf8

/-!
# TOML documents as written

The statements of a document and the values in them. Of floats and dates only their presence is
kept: no setting takes one.
-/

namespace Restyler.Toml

/-- The parts of a dotted key. -/
abbrev Key := List Bytes

mutual
inductive Value where
  | string (s : Bytes)
  | integer (n : Int)
  | float
  | boolean (b : Bool)
  | datetime
  | array (elements : Values)
  | inline (entries : Entries)
inductive Values where
  | nil
  | cons (value : Value) (rest : Values)
inductive Entries where
  | nil
  | cons (key : Key) (value : Value) (rest : Entries)
end

instance : Inhabited Value := ⟨.float⟩

def Values.toList : Values → List Value
  | .nil => []
  | .cons v vs => v :: vs.toList

inductive Statement where
  | table (key : Key)
  | tables (key : Key)
  | assign (key : Key) (value : Value)

-- --------------------------------------------------------------------
-- Keys in messages

def isBareByte (b : UInt8) : Bool :=
  (0x41 ≤ b && b ≤ 0x5A) || (0x61 ≤ b && b ≤ 0x7A) || Byte.isDigit b ||
    b == Byte.underscore || b == Byte.minus

/-- A byte of a quoted key part. -/
def keyEscape (b : UInt8) : Bytes :=
  if b = Byte.quote ∨ b = Byte.backslash then [Byte.backslash, b]
  else if b = 0x08 then bytes "\\b"
  else if b = 0x09 then bytes "\\t"
  else if b = 0x0A then bytes "\\n"
  else if b = 0x0C then bytes "\\f"
  else if b = 0x0D then bytes "\\r"
  else if b < 0x20 ∨ b = 0x7F then bytes "\\u" ++ hex 4 b.toNat
  else [b]

/-- A part that is not bare stands between quotes. -/
def keyPartText (part : Bytes) : Bytes :=
  if part ≠ [] ∧ part.all isBareByte then part
  else Byte.quote :: part.flatMap keyEscape ++ [Byte.quote]

def Key.text (key : Key) : Bytes := joinWith [Byte.dot] (key.map keyPartText)

end Restyler.Toml
