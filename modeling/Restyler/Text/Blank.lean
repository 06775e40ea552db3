import Restyler.Utf8

/-!
# White space around names

The white space of Unicode, and names trimmed of it. Stray bytes are not white space.
-/

namespace Restyler.Text

def isBlank (c : Char) : Bool :=
  let n := c.toNat
  (0x09 ≤ n && n ≤ 0x0D) || n == 0x20 || n == 0x85 || n == 0xA0 || n == 0x1680 ||
    (0x2000 ≤ n && n ≤ 0x200A) || n == 0x2028 || n == 0x2029 || n == 0x202F || n == 0x205F ||
    n == 0x3000

def isBlankSymbol : Symbol → Bool
  | .char c => isBlank c
  | .stray _ => false

def trim (s : Bytes) : Bytes :=
  let inner := (Utf8.symbols s).dropWhile isBlankSymbol
  (inner.reverse.dropWhile isBlankSymbol).reverse.flatMap Symbol.bytes

end Restyler.Text
