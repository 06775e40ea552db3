import Restyler.Utf8

/-!
# Single-byte character sets

A code page gives each byte a code point. A byte without one decodes to U+FFFD, and U+FFFD itself
is never encoded.
-/

namespace Restyler

/-- The code points of the bytes in order; 0xFFFD marks a byte that is not defined. -/
structure CodePage where
  codes : List Nat
  deriving DecidableEq

namespace CodePage

/-- Consecutive code points, both ends included. -/
def span (first last : Nat) : List Nat := List.range' first (last + 1 - first)

def gap (count : Nat) : List Nat := List.replicate count 0xFFFD

/-- A page whose lower half is ASCII. -/
def extending (upper : List Nat) : CodePage := ⟨List.range 0x80 ++ upper⟩

def ascii : CodePage := extending (gap 0x80)

def decodeByte (p : CodePage) (b : UInt8) : Char := Char.ofNat (p.codes.getD b.toNat 0xFFFD)

def encodeChar? (p : CodePage) (c : Char) : Option UInt8 :=
  if c = replacement then none else (p.codes.idxOf? c.toNat).map Nat.toUInt8

def decode (p : CodePage) (s : Bytes) : List Char := s.map p.decodeByte

/-- Fails on a stray byte and on a character that is not in the page. -/
def encode? (p : CodePage) (s : List Symbol) : Option Bytes :=
  s.mapM fun
    | .char c => p.encodeChar? c
    | .stray _ => none

end CodePage

end Restyler
