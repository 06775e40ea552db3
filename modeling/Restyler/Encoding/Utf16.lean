import Restyler.Utf8

/-!
# UTF-16

Text as 16-bit units in either byte order. Decoding never fails: a lone surrogate, and an odd byte
at the end, give U+FFFD. A trailing surrogate belongs to the surrogate before it even when that one
is trailing too, so two trailing ones give one U+FFFD.
-/

namespace Restyler.Utf16

inductive Order where
  | big
  | little
  deriving DecidableEq

/-- The unit written by two bytes. -/
def unit : Order → UInt8 → UInt8 → Nat
  | .big, a, b => a.toNat * 256 + b.toNat
  | .little, a, b => b.toNat * 256 + a.toNat

def unitBytes : Order → Nat → Bytes
  | .big, n => [(n / 256).toUInt8, (n % 256).toUInt8]
  | .little, n => [(n % 256).toUInt8, (n / 256).toUInt8]

def isLeading (n : Nat) : Bool := 0xD800 ≤ n && n < 0xDC00
def isTrailing (n : Nat) : Bool := 0xDC00 ≤ n && n < 0xE000

/-- The character of a surrogate and the trailing surrogate after it. -/
def pair (x y : Nat) : Char :=
  if isLeading x then Char.ofNat (0x10000 + (x - 0xD800) * 0x400 + (y - 0xDC00)) else replacement

def decode (order : Order) : Bytes → List Char
  | [] => []
  | [_] => [replacement]
  | a :: b :: s =>
    let x := unit order a b
    if isLeading x || isTrailing x then
      match s with
      | c :: d :: s' =>
        let y := unit order c d
        if isTrailing y then pair x y :: decode order s'
        else replacement :: decode order (c :: d :: s')
      | [c] => replacement :: decode order [c]
      | [] => [replacement]
    else Char.ofNat x :: decode order s

/-- A leading byte-order mark sets the order and is dropped; without one the order is big-endian. -/
def decodeMarked : Bytes → List Char
  | 0xFE :: 0xFF :: s => decode .big s
  | 0xFF :: 0xFE :: s => decode .little s
  | s => decode .big s

def encodeChar (order : Order) (c : Char) : Bytes :=
  let n := c.toNat
  if n < 0x10000 then unitBytes order n
  else
    unitBytes order (0xD800 + (n - 0x10000) / 0x400) ++
      unitBytes order (0xDC00 + (n - 0x10000) % 0x400)

def encode (order : Order) (cs : List Char) : Bytes := cs.flatMap (encodeChar order)

def encodeMarked (cs : List Char) : Bytes := 0xFE :: 0xFF :: encode .big cs

end Restyler.Utf16
