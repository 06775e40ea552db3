import Restyler.Bytes

/-!
# Numbers and switches on the command line

Whole numbers are decimal, or binary, octal or hexadecimal with `0b`, `0o` or `0x`; a leading zero
alone means octal too. Underscores may stand between digits and after such a mark. They have 64 bits.
-/

namespace Restyler.Cli

inductive NumberFault where
  | malformed
  | outOfRange
  deriving DecidableEq

def NumberFault.message : NumberFault → Bytes
  | .malformed => bytes "invalid syntax"
  | .outOfRange => bytes "value out of range"

/-- The value of a digit or a letter. -/
def digit? (b : UInt8) : Option Nat :=
  if Byte.isDigit b then some (b.toNat - 0x30)
  else
    let l := Byte.lower b
    if 0x61 ≤ l && l ≤ 0x7A then some (l.toNat - 0x61 + 10) else none

/-- Reads digits after those that gave `n`. The first byte that is no digit or makes the number too
large decides the fault. -/
def digitsAfter (base : Nat) : Nat → Bytes → Except NumberFault Nat
  | n, [] => .ok n
  | n, b :: s =>
    if b = Byte.underscore then digitsAfter base n s
    else match digit? b with
      | none => .error .malformed
      | some d =>
        if base ≤ d then .error .malformed
        else if 0x10000000000000000 ≤ n * base + d then .error .outOfRange
        else digitsAfter base (n * base + d) s

/-- Whether every underscore has a digit on each side. -/
def wellSpaced (afterDigit : Bool) : Bytes → Bool
  | [] => afterDigit
  | b :: s => if b = Byte.underscore then afterDigit && wellSpaced false s else wellSpaced true s

/-- The base that a number is written in, its digits, and whether a mark stands before them. -/
def writtenBase (s : Bytes) : Nat × Bytes × Bool :=
  match s with
  | 0x30 :: mark :: d :: ds =>
    let m := Byte.lower mark
    if m = 0x62 then (2, d :: ds, true)
    else if m = 0x6F then (8, d :: ds, true)
    else if m = 0x78 then (16, d :: ds, true)
    else (8, s, false)
  | 0x30 :: _ => (8, s, false)
  | _ => (10, s, false)

def magnitude (s : Bytes) : Except NumberFault Nat :=
  if s = [] then .error .malformed
  else
    let (base, digits, marked) := writtenBase s
    match digitsAfter base 0 digits with
    | .error f => .error f
    | .ok n => if wellSpaced marked digits then .ok n else .error .malformed

def wholeNumber (s : Bytes) : Except NumberFault Int :=
  let (negative, digits) := match s with
    | [] => (false, [])
    | b :: s' =>
      if b = Byte.plus then (false, s') else if b = Byte.minus then (true, s') else (false, s)
  match magnitude digits with
  | .error f => .error f
  | .ok n =>
    if (if negative then 0x8000000000000000 < n else 0x8000000000000000 ≤ n) then
      .error .outOfRange
    else .ok (if negative then -(n : Int) else n)

def yesWords : List Bytes :=
  [bytes "1", bytes "t", bytes "T", bytes "TRUE", bytes "true", bytes "True"]

def noWords : List Bytes :=
  [bytes "0", bytes "f", bytes "F", bytes "FALSE", bytes "false", bytes "False"]

def switch? (s : Bytes) : Option Bool :=
  if yesWords.contains s then some true else if noWords.contains s then some false else none

end Restyler.Cli
