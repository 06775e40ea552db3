/-!
# Byte strings

Source text, file contents, names and paths are byte strings. Nothing is assumed about their
encoding until a codec reads them. A text is the join of its lines, and a line holds no newline.
-/

namespace Restyler

abbrev Bytes := List UInt8

/-- The UTF-8 bytes of a string literal. -/
def bytes (s : String) : Bytes := s.toUTF8.data.toList

namespace Byte

abbrev tab : UInt8 := 0x09
abbrev newline : UInt8 := 0x0A
abbrev carriageReturn : UInt8 := 0x0D
abbrev space : UInt8 := 0x20
abbrev quote : UInt8 := 0x22
abbrev hash : UInt8 := 0x23
abbrev apostrophe : UInt8 := 0x27
abbrev plus : UInt8 := 0x2B
abbrev comma : UInt8 := 0x2C
abbrev minus : UInt8 := 0x2D
abbrev dot : UInt8 := 0x2E
abbrev slash : UInt8 := 0x2F
abbrev colon : UInt8 := 0x3A
abbrev equals : UInt8 := 0x3D
abbrev backslash : UInt8 := 0x5C
abbrev underscore : UInt8 := 0x5F

def isDigit (b : UInt8) : Bool := 0x30 ≤ b && b ≤ 0x39

def isHexDigit (b : UInt8) : Bool :=
  isDigit b || (0x41 ≤ b && b ≤ 0x46) || (0x61 ≤ b && b ≤ 0x66)

/-- The value of a digit in any base up to sixteen. -/
def digitValue (b : UInt8) : Nat :=
  if isDigit b then b.toNat - 0x30
  else if 0x61 ≤ b then b.toNat - 0x61 + 10
  else b.toNat - 0x41 + 10

/-- The lower-case hexadecimal digit of a value below sixteen. -/
def hexDigit (n : Nat) : UInt8 :=
  if n < 10 then (0x30 + n).toUInt8 else (0x61 + (n - 10)).toUInt8

/-- ASCII letters only; every other byte stays. -/
def lower (b : UInt8) : UInt8 := if 0x41 ≤ b && b ≤ 0x5A then b + 0x20 else b

end Byte

-- --------------------------------------------------------------------
-- Cutting and joining

/-- The stretches between the separators; one more than there are separators. -/
def splitOn (sep : UInt8) (s : Bytes) : List Bytes :=
  s.foldr (fun b ls =>
    if b = sep then [] :: ls
    else match ls with
      | [] => [[b]]
      | l :: ls => (b :: l) :: ls) [[]]

@[simp] theorem splitOn_nil (sep : UInt8) : splitOn sep [] = [[]] := rfl

theorem splitOn_cons (sep b : UInt8) (s : Bytes) :
    splitOn sep (b :: s) =
      if b = sep then [] :: splitOn sep s
      else match splitOn sep s with
        | [] => [[b]]
        | l :: ls => (b :: l) :: ls := rfl

theorem splitOn_ne_nil (sep : UInt8) (s : Bytes) : splitOn sep s ≠ [] := by
  induction s with
  | nil => simp
  | cons b s _ =>
    rw [splitOn_cons]
    split
    · simp
    · split <;> simp

def joinWith (sep : Bytes) : List Bytes → Bytes
  | [] => []
  | [l] => l
  | l :: ls => l ++ sep ++ joinWith sep ls

theorem joinWith_cons (sep l : Bytes) {ls : List Bytes} (h : ls ≠ []) :
    joinWith sep (l :: ls) = l ++ sep ++ joinWith sep ls := by
  cases ls with
  | nil => exact absurd rfl h
  | cons => rfl

theorem joinWith_splitOn (sep : UInt8) (s : Bytes) : joinWith [sep] (splitOn sep s) = s := by
  induction s with
  | nil => rfl
  | cons b s ih =>
    rw [splitOn_cons]
    split
    · next h => rw [joinWith_cons _ _ (splitOn_ne_nil sep s), ih, h]; rfl
    · cases h : splitOn sep s with
      | nil => exact absurd h (splitOn_ne_nil sep s)
      | cons l ls =>
        rw [h] at ih
        cases ls with
        | nil => simpa [joinWith] using ih
        | cons m ms => simpa [joinWith] using ih

/-- The lines of a text, without their newlines. -/
def lines (s : Bytes) : List Bytes := splitOn Byte.newline s

/-- Applies `f` to every line and leaves the newlines where they are. -/
def onLines (f : Bytes → Bytes) (s : Bytes) : Bytes := joinWith [Byte.newline] ((lines s).map f)

/-- What stands before and after the first occurrence of `pattern`. -/
def cut (pattern : Bytes) : Bytes → Option (Bytes × Bytes)
  | [] => if pattern = [] then some ([], []) else none
  | b :: s =>
    match pattern.isPrefixOf? (b :: s) with
    | some rest => some ([], rest)
    | none => (cut pattern s).map fun (x, y) => (b :: x, y)

/-- What stands before and after the last occurrence of `sep`. -/
def cutLast (sep : UInt8) (s : Bytes) : Option (Bytes × Bytes) :=
  let tail := s.reverse.takeWhile (· ≠ sep)
  match s.reverse.dropWhile (· ≠ sep) with
  | [] => none
  | _ :: head => some (head.reverse, tail.reverse)

-- --------------------------------------------------------------------
-- Numbers

def decimal (n : Nat) : Bytes := (Nat.toDigits 10 n).map fun c => c.toNat.toUInt8

def decimalInt : Int → Bytes
  | .ofNat n => decimal n
  | .negSucc n => Byte.minus :: decimal (n + 1)

def padLeft (fill : UInt8) (width : Nat) (s : Bytes) : Bytes :=
  List.replicate (width - s.length) fill ++ s

/-- `width` lower-case hexadecimal digits, the low ones of `n`. -/
def hex : Nat → Nat → Bytes
  | 0, _ => []
  | width + 1, n => hex width (n / 16) ++ [Byte.hexDigit (n % 16)]

end Restyler
