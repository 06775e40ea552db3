import Restyler.Utf8

/-!
# Names without case

Names that the program looks up are ASCII, so lower-casing has to be exact only for the characters
whose lower case is ASCII: the capital letters, the Kelvin sign and the dotted capital I. Comparing
names without case also identifies the long s with s.
-/

namespace Restyler.Text

def lowerChar (c : Char) : Char :=
  let n := c.toNat
  if 0x41 ≤ n ∧ n ≤ 0x5A then Char.ofNat (n + 0x20)
  else if n = 0x212A then 'k'
  else if n = 0x130 then 'i'
  else c

def lower (s : Bytes) : Bytes := Utf8.encode ((Utf8.chars s).map lowerChar)

/-- One representative for each class of characters that differ only in case, as far as an ASCII
character is in the class. The dotted capital I is in a class of its own. -/
def foldChar (c : Char) : Char :=
  let n := c.toNat
  if 0x41 ≤ n ∧ n ≤ 0x5A then Char.ofNat (n + 0x20)
  else if n = 0x212A then 'k'
  else if n = 0x17F then 's'
  else c

def sameFold (s t : Bytes) : Bool := (Utf8.chars s).map foldChar == (Utf8.chars t).map foldChar

end Restyler.Text
