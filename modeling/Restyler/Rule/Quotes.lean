import Restyler.Bytes

/-!
# Quote style

String literals prefer single quotes. A pass looks at the first few quote characters of a line and
respells them; the passes run one after the other over the whole text. They know nothing of
comments, escapes or literals that span lines.
-/

namespace Restyler.Rule

/-- A stretch of a line: as few bytes as possible up to a quote character, which is then respelled.
No stretch runs over an apostrophe, and only one that `crosses` runs over a double quote. -/
structure Stretch where
  crosses : Bool
  close : UInt8
  becomes : Bytes

namespace Stretch

def admits (p : Stretch) (b : UInt8) : Bool :=
  b != Byte.apostrophe && (p.crosses || b != Byte.quote)

/-- Ends the stretch at the first closing quote after which `rest` succeeds. -/
def scan (p : Stretch) (rest : Bytes → Option Bytes) : Bytes → Option Bytes
  | [] => none
  | b :: s =>
    match if b = p.close then rest s else none with
    | some out => some (p.becomes ++ out)
    | none => if p.admits b then (p.scan rest s).map (b :: ·) else none

/-- Up to the first quote character of the line, a double quote. -/
def opening (becomes : Bytes) : Stretch := ⟨false, Byte.quote, becomes⟩

end Stretch

/-- Consecutive stretches from the start of a line, with what follows them left alone. -/
def respell? : List Stretch → Bytes → Option Bytes
  | [], s => some s
  | p :: ps, s => p.scan (respell? ps) s

def respell (pass : List Stretch) (line : Bytes) : Bytes := (respell? pass line).getD line

def single : Bytes := [Byte.apostrophe]
def double : Bytes := [Byte.quote]
def escaped : Bytes := [Byte.backslash, Byte.apostrophe]

/-- The passes in their order: two plain literals, one plain literal, a literal with one apostrophe,
with two, and with four. -/
def quotePasses : List (List Stretch) :=
  [[.opening single, ⟨true, Byte.quote, single⟩, ⟨false, Byte.quote, single⟩,
      ⟨true, Byte.quote, single⟩],
   [.opening single, ⟨true, Byte.quote, single⟩],
   [.opening single, ⟨true, Byte.apostrophe, escaped⟩, ⟨true, Byte.quote, single⟩],
   [.opening single, ⟨true, Byte.apostrophe, double⟩, ⟨true, Byte.apostrophe, double⟩,
      ⟨true, Byte.quote, single⟩],
   [.opening single, ⟨true, Byte.apostrophe, double⟩, ⟨true, Byte.apostrophe, double⟩,
      ⟨true, Byte.apostrophe, double⟩, ⟨true, Byte.apostrophe, double⟩,
      ⟨true, Byte.quote, single⟩]]

def normalizeQuotes (s : Bytes) : Bytes :=
  quotePasses.foldl (fun s pass => onLines (respell pass) s) s

end Restyler.Rule
