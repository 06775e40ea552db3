import Restyler.Bytes

/-!
# Conditional one-liners

A line `if (test) return x;` becomes two: the test, and the statement indented by one more unit. The
test ends at the first `) return` (or `) throw`) of the line, and the line must start with the `if`,
spaces and tabs apart.
-/

namespace Restyler.Rule

def isIndent (b : UInt8) : Bool := b == Byte.space || b == Byte.tab

/-- Splits one line before `keyword`. The unit is inserted as it is, whatever bytes it holds. -/
def splitLine (unit keyword line : Bytes) : Bytes :=
  let indent := line.takeWhile isIndent
  match (bytes "if (").isPrefixOf? (line.dropWhile isIndent) with
  | none => line
  | some body =>
    match cut (bytes ") " ++ keyword) body with
    | none => line
    | some (test, rest) =>
      indent ++ bytes "if (" ++ test ++ bytes ")" ++ [Byte.newline] ++
        indent ++ unit ++ keyword ++ rest

def splitBefore (unit keyword s : Bytes) : Bytes := onLines (splitLine unit keyword) s

def splitConditionals (unit s : Bytes) : Bytes :=
  splitBefore unit (bytes "throw") (splitBefore unit (bytes "return") s)

end Restyler.Rule
