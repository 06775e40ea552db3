import Restyler.Text.Printable

/-!
# Quoted names in messages

A name in a message stands between double quotes. Control characters, the quote, the backslash,
stray bytes and characters that do not print are escaped, so a quoted name is one printable line.
-/

namespace Restyler.Text

/-- The letter of a one-letter escape. -/
def escapeLetter? (n : Nat) : Option UInt8 :=
  if n = 0x07 then some 0x61
  else if n = 0x08 then some 0x62
  else if n = 0x09 then some 0x74
  else if n = 0x0A then some 0x6E
  else if n = 0x0B then some 0x76
  else if n = 0x0C then some 0x66
  else if n = 0x0D then some 0x72
  else none

/-- A character inside quotes that are written `delimiter`. -/
def escapeChar (delimiter : UInt8) (c : Char) : Bytes :=
  let n := c.toNat
  if n = delimiter.toNat ∨ n = 0x5C then [Byte.backslash, n.toUInt8]
  else if isPrintable c then encodeChar c
  else match escapeLetter? n with
    | some l => [Byte.backslash, l]
    | none =>
      if n < 0x20 ∨ n = 0x7F then Byte.backslash :: 0x78 :: hex 2 n
      else if n < 0x10000 then Byte.backslash :: 0x75 :: hex 4 n
      else Byte.backslash :: 0x55 :: hex 8 n

def escapeSymbol : Symbol → Bytes
  | .char c => escapeChar Byte.quote c
  | .stray b => Byte.backslash :: 0x78 :: hex 2 b.toNat

def quoted (s : Bytes) : Bytes :=
  Byte.quote :: (Utf8.symbols s).flatMap escapeSymbol ++ [Byte.quote]

/-- A single character between apostrophes. -/
def quotedChar (c : Char) : Bytes :=
  Byte.apostrophe :: escapeChar Byte.apostrophe c ++ [Byte.apostrophe]

end Restyler.Text
