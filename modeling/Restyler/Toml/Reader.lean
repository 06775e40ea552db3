import Restyler.Toml.Strings
import Restyler.Toml.Value

/-!
# Reading TOML

From the bytes of a document to its statements. A statement stands on a line of its own; arrays may
go over several lines and inline tables may not. A document holds no control characters but tabs and
line ends, and is well-formed UTF-8 throughout.
-/

namespace Restyler.Toml

-- --------------------------------------------------------------------
-- Admissible bytes

/-- The document without a leading byte-order mark. -/
def withoutMark (s : Bytes) : Bytes :=
  if [0xFF, 0xFE].isPrefixOf s || [0xFE, 0xFF].isPrefixOf s then s.drop 2
  else if [0xEF, 0xBB, 0xBF].isPrefixOf s then s.drop 3
  else s

def hasControl : Bytes → Bool
  | [] => false
  | b :: s =>
    (if b = Byte.carriageReturn then s.head? ≠ some Byte.newline
      else (b < 0x20 && b ≠ Byte.tab && b ≠ Byte.newline) || b == 0x7F) || hasControl s

/-- Stray bytes read as U+FFFD, and that character itself is refused as well. -/
def isAdmissible (s : Bytes) : Bool := !hasControl s && !(Utf8.chars s).contains replacement

-- --------------------------------------------------------------------
-- Blanks and comments

def skipBlanks (s : Bytes) : Bytes := s.dropWhile isBlank

/-- Skips blanks, line ends and comments. -/
def skipFiller (inComment : Bool) : Bytes → Bytes
  | [] => []
  | b :: s =>
    if inComment then skipFiller (b != Byte.newline) s
    else if isFiller b then skipFiller false s
    else if b = Byte.hash then skipFiller true s
    else b :: s

/-- Nothing but blanks and a comment may follow a statement on its line. -/
def endOfLine? (s : Bytes) : Option Bytes :=
  match skipBlanks s with
  | [] => some []
  | b :: s =>
    if isNewline b then some s
    else if b = Byte.hash then some (s.dropWhile (· != Byte.newline))
    else none

-- --------------------------------------------------------------------
-- Keys

def keyPart? (s : Bytes) : Option (Bytes × Bytes) :=
  match s with
  | [] => none
  | b :: rest =>
    if b = Byte.quote then basic? rest
    else if b = Byte.apostrophe then literalBody? rest
    else if isBareByte b then some (s.takeWhile isBareByte, s.dropWhile isBareByte)
    else none

/-- Parts with dots between them, and what follows the blanks after the last one. -/
def key? : Nat → Bytes → Option (Key × Bytes)
  | 0, _ => none
  | fuel + 1, s => do
    let (part, s) ← keyPart? (skipBlanks s)
    match skipBlanks s with
    | [] => return ([part], [])
    | b :: s =>
      if b = Byte.dot then
        let (parts, s) ← key? fuel s
        return (part :: parts, s)
      else return ([part], b :: s)

-- --------------------------------------------------------------------
-- Values

abbrev leftBracket : UInt8 := 0x5B
abbrev rightBracket : UInt8 := 0x5D
abbrev leftBrace : UInt8 := 0x7B
abbrev rightBrace : UInt8 := 0x7D

def endsToken (b : UInt8) : Bool :=
  isFiller b || b == Byte.comma || b == rightBracket || b == rightBrace || b == Byte.hash

def isDateByte (b : UInt8) : Bool :=
  Byte.isDigit b || b == Byte.minus || b == Byte.colon || b == 0x54 || b == 0x74 ||
    b == Byte.space || b == Byte.dot || b == 0x5A || b == 0x7A || b == Byte.plus

def trimRight (s : Bytes) : Bytes := (s.reverse.dropWhile (· == Byte.space)).reverse

/-- Digits followed by a dash or a colon begin a date or a time. A zero alone does not: it is a
number. -/
def startsDate (s : Bytes) : Bool :=
  let digits := s.takeWhile Byte.isDigit
  digits ≠ [] && digits ≠ [0x30] &&
    match s.dropWhile Byte.isDigit with
    | b :: _ => b == Byte.minus || b == Byte.colon
    | [] => false

def ofToken? (token : Bytes) : Option Value :=
  if token = bytes "true" then some (.boolean true)
  else if token = bytes "false" then some (.boolean false)
  else match integer? token with
    | some n => some (.integer n)
    | none => if isFloat token then some .float else none

def scalar? (s : Bytes) : Option (Value × Bytes) :=
  if startsDate s then
    if isDatetime (trimRight (s.takeWhile isDateByte)) then some (.datetime, s.dropWhile isDateByte)
    else none
  else
    (ofToken? (s.takeWhile fun b => !endsToken b)).map fun v =>
      (v, s.dropWhile fun b => !endsToken b)

def asString (p : Bytes × Bytes) : Value × Bytes := (.string p.1, p.2)

mutual
/-- A value, which must not begin on another line. -/
def value? : Nat → Bytes → Option (Value × Bytes)
  | 0, _ => none
  | fuel + 1, s =>
    match skipBlanks s with
    | [] => none
    | b :: s =>
      if b = leftBracket then (values? fuel s).map fun p => (.array p.1, p.2)
      else if b = leftBrace then (entries? fuel true s).map fun p => (.inline p.1, p.2)
      else if b = Byte.quote then
        match [Byte.quote, Byte.quote].isPrefixOf? s with
        | some s => (basicBlock? s).map asString
        | none => (basic? s).map asString
      else if b = Byte.apostrophe then
        match [Byte.apostrophe, Byte.apostrophe].isPrefixOf? s with
        | some s => (literalBlock? s).map asString
        | none => (literalBody? s).map asString
      else scalar? (b :: s)

/-- The rest of an array, in which a comma may also follow the last value. -/
def values? : Nat → Bytes → Option (Values × Bytes)
  | 0, _ => none
  | fuel + 1, s =>
    match skipFiller false s with
    | [] => none
    | b :: s =>
      if b = rightBracket then some (.nil, s)
      else
        match value? fuel (b :: s) with
        | none => none
        | some (v, s) =>
          match skipFiller false s with
          | [] => none
          | b :: s =>
            if b = rightBracket then some (.cons v .nil, s)
            else if b = Byte.comma then (values? fuel s).map fun p => (.cons v p.1, p.2)
            else none

/-- The rest of an inline table; it may end here only if `mayEnd`. -/
def entries? : Nat → Bool → Bytes → Option (Entries × Bytes)
  | 0, _, _ => none
  | fuel + 1, mayEnd, s =>
    match skipBlanks s with
    | [] => none
    | b :: s =>
      if b = rightBrace then (if mayEnd then some (.nil, s) else none)
      else
        match key? fuel (b :: s) with
        | none => none
        | some (_, []) => none
        | some (k, b :: s) =>
          if b ≠ Byte.equals then none
          else
            match value? fuel s with
            | none => none
            | some (v, s) =>
              match skipBlanks s with
              | [] => none
              | b :: s =>
                if b = rightBrace then some (.cons k v .nil, s)
                else if b = Byte.comma then
                  (entries? fuel false s).map fun p => (.cons k v p.1, p.2)
                else none
end

-- --------------------------------------------------------------------
-- Statements

/-- A header between single or double brackets; the first bracket has been read. -/
def header? (fuel : Nat) (s : Bytes) : Option (Statement × Bytes) :=
  match [leftBracket].isPrefixOf? s with
  | some s => do
    let (k, s) ← key? fuel s
    let s ← [rightBracket, rightBracket].isPrefixOf? s
    return (.tables k, s)
  | none => do
    let (k, s) ← key? fuel s
    let s ← [rightBracket].isPrefixOf? s
    return (.table k, s)

def assignment? (fuel : Nat) (s : Bytes) : Option (Statement × Bytes) := do
  let (k, s) ← key? fuel s
  let s ← [Byte.equals].isPrefixOf? s
  let (v, s) ← value? fuel s
  return (.assign k v, s)

def statement? (fuel : Nat) (s : Bytes) : Option (Statement × Bytes) :=
  match [leftBracket].isPrefixOf? s with
  | some s => header? fuel s
  | none => assignment? fuel s

def statementsFrom? : Nat → Bytes → Option (List Statement)
  | 0, _ => none
  | fuel + 1, s =>
    match skipFiller false s with
    | [] => some []
    | b :: s => do
      let (statement, s) ← statement? (2 * s.length + 4) (b :: s)
      let s ← endOfLine? s
      let rest ← statementsFrom? fuel s
      return statement :: rest

/-- The statements of a document; `none` if it is malformed. -/
def statements? (document : Bytes) : Option (List Statement) :=
  let s := withoutMark document
  if isAdmissible s then statementsFrom? (s.length + 1) s else none

end Restyler.Toml
