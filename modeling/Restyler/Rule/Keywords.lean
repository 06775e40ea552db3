import Restyler.Bytes

/-!
# Space after keywords

The keywords `function`, `catch` and `typeof` take a space before an opening parenthesis. The rule
looks at bytes only: it also acts inside longer words and inside string literals.
-/

namespace Restyler.Rule

def spacedKeywords : List Bytes := [bytes "function", bytes "catch", bytes "typeof"]

/-- The keyword that starts `s` directly before a parenthesis. -/
def keywordAt? (s : Bytes) : Option Bytes :=
  spacedKeywords.find? fun k => (k ++ bytes "(").isPrefixOf s

/-- Copies a line and puts a space before the parenthesis of each keyword. The first argument
counts the bytes up to that parenthesis while a keyword is being copied. -/
def spaceFrom : Nat → Bytes → Bytes
  | _, [] => []
  | 0, b :: s =>
    match keywordAt? (b :: s) with
    | some k => b :: spaceFrom k.length s
    | none => b :: spaceFrom 0 s
  | 1, b :: s => Byte.space :: b :: spaceFrom 0 s
  | n + 2, b :: s => b :: spaceFrom (n + 1) s

def spaceKeywords (s : Bytes) : Bytes := onLines (spaceFrom 0) s

end Restyler.Rule
