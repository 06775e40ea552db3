import Restyler.Toml.Scalar
import Restyler.Utf8

/-!
# TOML strings

A string is first cut out of the document as it is written, then its escapes are resolved. Strings
of one line hold no newline. Strings of several lines end at three quotes; up to two quotes may
stand before these, and one more directly after an escaped backslash.
-/

namespace Restyler.Toml

def isNewline (b : UInt8) : Bool := b == Byte.newline || b == Byte.carriageReturn
def isBlank (b : UInt8) : Bool := b == Byte.space || b == Byte.tab

/-- Puts a byte before the first of two parts. -/
def ahead (b : UInt8) (p : Bytes × Bytes) : Bytes × Bytes := (b :: p.1, p.2)

-- --------------------------------------------------------------------
-- Cutting strings out

/-- The body of a string in double quotes, as written, and what follows its closing quote. -/
def basicBody? : Bytes → Option (Bytes × Bytes)
  | [] => none
  | b :: s =>
    if b = Byte.quote then some ([], s)
    else if isNewline b then none
    else if b = Byte.backslash then
      match s with
      | [] => none
      | c :: s => (basicBody? s).map fun p => ahead b (ahead c p)
    else (basicBody? s).map (ahead b)

/-- The body of a string in apostrophes, where nothing is escaped. -/
def literalBody? : Bytes → Option (Bytes × Bytes)
  | [] => none
  | b :: s =>
    if b = Byte.apostrophe then some ([], s)
    else if isNewline b then none
    else (literalBody? s).map (ahead b)

/-- The longest run of quotes that may end a string of several lines. -/
def closingRun : Nat := 5

/-- The body of a string of several lines, as written, and what follows its closing quotes. A run of
at least three quotes ends the string, of which `limit` are allowed. -/
def blockBody? (quote : UInt8) (escapes : Bool) (limit : Nat) : Bytes → Option (Bytes × Bytes)
  | [] => none
  | b :: s =>
    if b = quote then
      let run := (s.takeWhile (· == quote)).length + 1
      if run < 3 then (blockBody? quote escapes closingRun s).map (ahead b)
      else if run ≤ limit then some (List.replicate (run - 3) quote, s.drop (run - 1))
      else none
    else if escapes && b == Byte.backslash then
      match s with
      | [] => none
      | c :: s =>
        (blockBody? quote escapes (if c = Byte.backslash then closingRun + 1 else closingRun) s).map
          fun p => ahead b (ahead c p)
    else (blockBody? quote escapes closingRun s).map (ahead b)

-- --------------------------------------------------------------------
-- Escapes

def escaped? (b : UInt8) : Option UInt8 :=
  if b = 0x62 then some 0x08
  else if b = 0x74 then some Byte.tab
  else if b = 0x6E then some Byte.newline
  else if b = 0x66 then some 0x0C
  else if b = 0x72 then some Byte.carriageReturn
  else if b = Byte.quote then some Byte.quote
  else if b = Byte.backslash then some Byte.backslash
  else none

/-- The character whose number is written in hexadecimal digits; surrogates are none. -/
def numbered? (digits : Bytes) : Option Char :=
  if digits.all Byte.isHexDigit then
    let n := digitsValue 16 digits
    if n.isValidChar then some (Char.ofNat n) else none
  else none

def unescape? : Bytes → Option Bytes
  | [] => some []
  | b :: s =>
    if b ≠ Byte.backslash then (unescape? s).map (b :: ·)
    else match s with
      | [] => none
      | c :: s =>
        match escaped? c with
        | some e => (unescape? s).map (e :: ·)
        | none =>
          if c = 0x75 then
            match s with
            | d₁ :: d₂ :: d₃ :: d₄ :: s =>
              match numbered? [d₁, d₂, d₃, d₄] with
              | some ch => (unescape? s).map (encodeChar ch ++ ·)
              | none => none
            | _ => none
          else if c = 0x55 then
            match s with
            | d₁ :: d₂ :: d₃ :: d₄ :: d₅ :: d₆ :: d₇ :: d₈ :: s =>
              match numbered? [d₁, d₂, d₃, d₄, d₅, d₆, d₇, d₈] with
              | some ch => (unescape? s).map (encodeChar ch ++ ·)
              | none => none
            | _ => none
          else none

/-- A newline directly after the opening quotes is not part of the string. -/
def withoutFirstNewline (s : Bytes) : Bytes :=
  match s with
  | b :: s' =>
    if b = Byte.newline then s'
    else if b = Byte.carriageReturn ∧ s'.head? = some Byte.newline then s'.drop 1
    else s
  | [] => []

def isFiller (b : UInt8) : Bool := isBlank b || isNewline b

/-- Removes each backslash that ends a line, with the white space up to the next text. -/
def joinLines (skipping : Bool) : Bytes → Bytes
  | [] => []
  | b :: s =>
    if skipping && isFiller b then joinLines true s
    else if b = Byte.backslash then
      match s with
      | [] => [b]
      | c :: s' =>
        if c = Byte.backslash then b :: c :: joinLines false s'
        else if ((c :: s').takeWhile isFiller).contains Byte.newline then joinLines true (c :: s')
        else b :: joinLines false (c :: s')
    else b :: joinLines false s

-- --------------------------------------------------------------------
-- Strings

/-- A string of one line; the opening quote has been read. -/
def basic? (s : Bytes) : Option (Bytes × Bytes) := do
  let (body, rest) ← basicBody? s
  let text ← unescape? body
  return (text, rest)

def basicBlock? (s : Bytes) : Option (Bytes × Bytes) := do
  let (body, rest) ← blockBody? Byte.quote true closingRun s
  let text ← unescape? (joinLines false (withoutFirstNewline body))
  return (text, rest)

def literalBlock? (s : Bytes) : Option (Bytes × Bytes) := do
  let (body, rest) ← blockBody? Byte.apostrophe false closingRun s
  return (withoutFirstNewline body, rest)

end Restyler.Toml
