import Restyler.Bytes

/-!
# UTF-8

A byte string is read as a list of symbols: characters, and stray bytes that begin no well-formed
sequence. Overlong forms, surrogates and values above U+10FFFF are not well formed. Each stray byte
is a symbol of its own, so the bytes of the symbols always give back the input.
-/

namespace Restyler

inductive Symbol where
  | char (c : Char)
  | stray (b : UInt8)
  deriving DecidableEq

def encodeChar (c : Char) : Bytes := String.utf8EncodeChar c

def Symbol.bytes : Symbol → Bytes
  | .char c => encodeChar c
  | .stray b => [b]

/-- The character that stands for a stray byte where only characters may stand. -/
def replacement : Char := Char.ofNat 0xFFFD

def Symbol.toChar : Symbol → Char
  | .char c => c
  | .stray _ => replacement

namespace Utf8

def isContinuation (b : UInt8) : Bool := 0x80 ≤ b && b < 0xC0

/-- The character numbered `n`, if it is at least `least` and no surrogate. -/
def scalar? (least n : Nat) : Option Char :=
  if least ≤ n ∧ n.isValidChar then some (Char.ofNat n) else none

def two? (b₀ b₁ : UInt8) : Option Char :=
  if 0xC0 ≤ b₀ && b₀ < 0xE0 && isContinuation b₁ then
    scalar? 0x80 ((b₀.toNat - 0xC0) * 64 + (b₁.toNat - 0x80))
  else none

def three? (b₀ b₁ b₂ : UInt8) : Option Char :=
  if 0xE0 ≤ b₀ && b₀ < 0xF0 && isContinuation b₁ && isContinuation b₂ then
    scalar? 0x800 (((b₀.toNat - 0xE0) * 64 + (b₁.toNat - 0x80)) * 64 + (b₂.toNat - 0x80))
  else none

def four? (b₀ b₁ b₂ b₃ : UInt8) : Option Char :=
  if 0xF0 ≤ b₀ && b₀ < 0xF8 && isContinuation b₁ && isContinuation b₂ && isContinuation b₃ then
    scalar? 0x10000
      ((((b₀.toNat - 0xF0) * 64 + (b₁.toNat - 0x80)) * 64 + (b₂.toNat - 0x80)) * 64 +
        (b₃.toNat - 0x80))
  else none

/-- The symbols of a byte string, from left to right. -/
def symbols : Bytes → List Symbol
  | [] => []
  | b :: s =>
    if b < 0x80 then .char (Char.ofNat b.toNat) :: symbols s
    else match s with
      | [] => [.stray b]
      | b₁ :: s₁ =>
        match two? b b₁ with
        | some c => .char c :: symbols s₁
        | none =>
          match s₁ with
          | [] => .stray b :: symbols [b₁]
          | b₂ :: s₂ =>
            match three? b b₁ b₂ with
            | some c => .char c :: symbols s₂
            | none =>
              match s₂ with
              | [] => .stray b :: symbols [b₁, b₂]
              | b₃ :: s₃ =>
                match four? b b₁ b₂ b₃ with
                | some c => .char c :: symbols s₃
                | none => .stray b :: symbols (b₁ :: b₂ :: b₃ :: s₃)

/-- Whether a byte string is well formed: it has no stray byte. -/
def valid : Bytes → Bool
  | [] => true
  | b :: s =>
    if b < 0x80 then valid s
    else match s with
      | [] => false
      | b₁ :: s₁ =>
        if (two? b b₁).isSome then valid s₁
        else match s₁ with
          | [] => false
          | b₂ :: s₂ =>
            if (three? b b₁ b₂).isSome then valid s₂
            else match s₂ with
              | [] => false
              | b₃ :: s₃ => if (four? b b₁ b₂ b₃).isSome then valid s₃ else false

/-- The characters of a byte string, each stray byte read as U+FFFD. -/
def chars (s : Bytes) : List Char := (symbols s).map Symbol.toChar

def encode (cs : List Char) : Bytes := cs.flatMap encodeChar

/-- The number of symbols. -/
def length (s : Bytes) : Nat := (symbols s).length

end Utf8

end Restyler
