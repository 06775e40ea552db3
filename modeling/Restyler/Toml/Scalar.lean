import Restyler.Bytes

/-!
# TOML numbers and dates

Whether a token is an integer, a float or a date, and the value of an integer. Underscores stand
between digits, decimal numbers have no leading zeros, integers have 64 bits, and floats must not
overflow the double format.
-/

namespace Restyler.Toml

/-- Digits with single underscores between them, of which the digits are returned. -/
def underscored? (isDigit : UInt8 → Bool) : Bytes → Option Bytes
  | [] => none
  | [b] => if isDigit b then some [b] else none
  | b :: c :: s =>
    if !isDigit b then none
    else if c = Byte.underscore then (underscored? isDigit s).map (b :: ·)
    else (underscored? isDigit (c :: s)).map (b :: ·)

def digitsValue (base : Nat) (ds : Bytes) : Nat :=
  ds.foldl (fun n d => n * base + Byte.digitValue d) 0

def fitsInt64 (n : Int) : Bool := -0x8000000000000000 ≤ n && n < 0x8000000000000000

def bounded? (n : Int) : Option Int := if fitsInt64 n then some n else none

def isOctal (b : UInt8) : Bool := 0x30 ≤ b && b ≤ 0x37
def isBinary (b : UInt8) : Bool := b == 0x30 || b == 0x31

/-- Decimal digits without a leading zero. -/
def decimalDigits? (s : Bytes) : Option Bytes :=
  if s.head? = some 0x30 ∧ s ≠ [0x30] then none else underscored? Byte.isDigit s

def signed? (s : Bytes) : Bool × Bytes :=
  match s with
  | b :: s' => if b = Byte.minus then (true, s') else if b = Byte.plus then (false, s') else (false, s)
  | [] => (false, [])

/-- The value of an integer token; `none` if it is no integer or does not fit 64 bits. -/
def integer? (s : Bytes) : Option Int :=
  match s with
  | 0x30 :: 0x78 :: ds => (underscored? Byte.isHexDigit ds).bind fun ds => bounded? (digitsValue 16 ds)
  | 0x30 :: 0x6F :: ds => (underscored? isOctal ds).bind fun ds => bounded? (digitsValue 8 ds)
  | 0x30 :: 0x62 :: ds => (underscored? isBinary ds).bind fun ds => bounded? (digitsValue 2 ds)
  | _ =>
    let (negative, ds) := signed? s
    (decimalDigits? ds).bind fun ds =>
      let n : Int := digitsValue 10 ds
      bounded? (if negative then -n else n)

-- --------------------------------------------------------------------
-- Floats

/-- Whether `digits · 10 ^ exponent` rounds to a finite double. -/
def fitsDouble (digits : Bytes) (exponent : Int) : Bool :=
  let digits := digits.dropWhile (· == 0x30)
  let size : Int := digits.length + exponent
  if digits = [] || size < 308 then true
  else if 310 < size then false
  else
    let n := digitsValue 10 digits
    let limit := Nat.pow 2 1024 - Nat.pow 2 970
    if 0 ≤ exponent then n * Nat.pow 10 exponent.toNat < limit
    else n < limit * Nat.pow 10 (-exponent).toNat

/-- An exponent: a sign and digits, of which leading zeros are allowed. -/
def exponent? (s : Bytes) : Option Int :=
  let (negative, ds) := signed? s
  (underscored? Byte.isDigit ds).map fun ds =>
    let n : Int := digitsValue 10 ds
    if negative then -n else n

def isExponentMark (b : UInt8) : Bool := b == 0x65 || b == 0x45

/-- A float token: a fraction or an exponent or both, or a signed `inf` or `nan`. -/
def isFloat (s : Bytes) : Bool :=
  let (_, s) := signed? s
  if s = bytes "inf" || s = bytes "nan" then true
  else
    let mantissa := s.takeWhile fun b => !isExponentMark b
    let exponent := match s.dropWhile fun b => !isExponentMark b with
      | [] => some none
      | _ :: e => (exponent? e).map some
    match exponent, cut [Byte.dot] mantissa with
    | some (some e), none =>
      match decimalDigits? mantissa with
      | some ds => fitsDouble ds e
      | none => false
    | some e, some (whole, fraction) =>
      match decimalDigits? whole, underscored? Byte.isDigit fraction with
      | some ds, some fs => fitsDouble (ds ++ fs) (e.getD 0 - fs.length)
      | _, _ => false
    | _, _ => false

-- --------------------------------------------------------------------
-- Dates and times

def isLeapYear (y : Nat) : Bool := y % 4 = 0 && (y % 100 ≠ 0 || y % 400 = 0)

def daysIn (year month : Nat) : Nat :=
  match month with
  | 2 => if isLeapYear year then 29 else 28
  | 4 | 6 | 9 | 11 => 30
  | _ => 31

/-- A number of exactly `width` digits, and what follows it. -/
def fixed? (width : Nat) (s : Bytes) : Option (Nat × Bytes) :=
  let ds := s.take width
  if ds.length = width ∧ ds.all Byte.isDigit then some (digitsValue 10 ds, s.drop width) else none

/-- Two digits, or one if no second follows. -/
def hour? (s : Bytes) : Option (Nat × Bytes) :=
  match fixed? 2 s with
  | some r => some r
  | none => fixed? 1 s

def expect? (b : UInt8) (s : Bytes) : Option Bytes := [b].isPrefixOf? s

def date? (s : Bytes) : Option Bytes := do
  let (year, s) ← fixed? 4 s
  let (month, s) ← fixed? 2 (← expect? Byte.minus s)
  let (day, s) ← fixed? 2 (← expect? Byte.minus s)
  if 1 ≤ month ∧ month ≤ 12 ∧ 1 ≤ day ∧ day ≤ daysIn year month then some s else none

def fraction (s : Bytes) : Bytes :=
  match s with
  | b :: d :: s' =>
    if b = Byte.dot ∧ Byte.isDigit d then s'.dropWhile Byte.isDigit else s
  | _ => s

def time? (s : Bytes) : Option Bytes := do
  let (hour, s) ← hour? s
  let (minute, s) ← fixed? 2 (← expect? Byte.colon s)
  let (second, s) ← fixed? 2 (← expect? Byte.colon s)
  if hour < 24 ∧ minute < 60 ∧ second < 60 then some (fraction s) else none

def zone? (s : Bytes) : Option Bytes :=
  match s with
  | b :: s' =>
    if b = 0x5A then some s'
    else if b = Byte.plus ∨ b = Byte.minus then do
      let (hours, s) ← fixed? 2 s'
      let (minutes, s) ← fixed? 2 (← expect? Byte.colon s)
      if hours ≤ 24 ∧ minutes ≤ 60 then some s else none
    else none
  | [] => none

/-- Lower-case marks and a blank before the time are allowed. -/
def upperMark (b : UInt8) : UInt8 :=
  if b = 0x7A then 0x5A else if b = 0x74 ∨ b = Byte.space then 0x54 else b

/-- A date, a time, or a date with a time, the last with or without a zone. -/
def isDatetime (token : Bytes) : Bool :=
  let s := token.map upperMark
  time? s = some [] ||
    match date? s with
    | some [] => true
    | some (0x54 :: s) =>
      match time? s with
      | some [] => true
      | some s => zone? s = some []
      | none => false
    | _ => false

end Restyler.Toml
