import Mathlib.Data.List.TakeWhile
import Restyler.Assoc
import Restyler.Encoding.Utf16
import Restyler.Proofs.Patch
import Restyler.Proofs.Utf8
import Restyler.Trace.Event

/-!
# Reading JSON

A reader of JSON texts. It takes any value with blanks wherever they may stand, and it refuses text
that is not UTF-8, control characters inside strings, surrogates without their partner and numbers
with leading zeros. What the trace writes is read by it: a string as the characters written, a
number as its digits, an object as its members in order.
-/

namespace Restyler.Json

/-- A value; a number is kept as it is spelled, and members in the order of the text. -/
inductive Value where
  | null
  | boolean (b : Bool)
  | number (literal : Bytes)
  | string (s : Bytes)
  | array (vs : List Value)
  | object (ms : List (Bytes × Value))

def isBlank (b : UInt8) : Bool :=
  b = Byte.space || b = Byte.tab || b = Byte.newline || b = Byte.carriageReturn

def skip (s : Bytes) : Bytes := s.dropWhile isBlank

-- --------------------------------------------------------------------
-- Strings

/-- A string is spelled in bytes that stand for themselves and in escaped UTF-16 units. -/
inductive Piece where
  | byte (b : UInt8)
  | unit (n : Nat)

/-- The letters that stand for a unit behind a backslash. -/
def letters : List (UInt8 × Nat) :=
  [(Byte.quote, 0x22), (Byte.backslash, 0x5C), (Byte.slash, 0x2F), (0x62, 0x08), (0x66, 0x0C),
    (0x6E, 0x0A), (0x72, 0x0D), (0x74, 0x09)]

/-- The value of hexadecimal digits. -/
def unit? (ds : Bytes) : Option Nat :=
  if ds.all Byte.isHexDigit then some (ds.foldl (fun n d => n * 16 + Byte.digitValue d) 0) else none

/-- The pieces up to the closing quote, and what follows it. -/
def pieces? : Bytes → Option (List Piece × Bytes)
  | [] => none
  | b :: s =>
    if b = Byte.quote then some ([], s)
    else if b = Byte.backslash then
      match s with
      | [] => none
      | e :: s =>
        if e ≠ 0x75 then
          (Assoc.get? e letters).bind fun n =>
            (pieces? s).map fun (ps, rest) => (.unit n :: ps, rest)
        else match s with
          | d₁ :: d₂ :: d₃ :: d₄ :: s =>
            (unit? [d₁, d₂, d₃, d₄]).bind fun n =>
              (pieces? s).map fun (ps, rest) => (.unit n :: ps, rest)
          | _ => none
    else if b < 0x20 then none
    else (pieces? s).map fun (ps, rest) => (.byte b :: ps, rest)
termination_by structural s => s

@[simp] theorem pieces?_quote (s : Bytes) : pieces? (Byte.quote :: s) = some ([], s) := by
  rw [pieces?.eq_def]
  simp

theorem pieces?_letter {e : UInt8} {n : Nat} (he : e ≠ 0x75) (h : Assoc.get? e letters = some n)
    (s : Bytes) : pieces? (Byte.backslash :: e :: s) =
      (pieces? s).map fun (ps, rest) => (.unit n :: ps, rest) := by
  rw [pieces?.eq_def]
  simp [he, h, (by decide : Byte.backslash ≠ Byte.quote)]

theorem pieces?_unit {d₁ d₂ d₃ d₄ : UInt8} {n : Nat} (h : unit? [d₁, d₂, d₃, d₄] = some n)
    (s : Bytes) : pieces? (Byte.backslash :: 0x75 :: d₁ :: d₂ :: d₃ :: d₄ :: s) =
      (pieces? s).map fun (ps, rest) => (.unit n :: ps, rest) := by
  rw [pieces?.eq_def]
  simp [h, (by decide : Byte.backslash ≠ Byte.quote)]

def content? : List Piece → Option Bytes
  | [] => some []
  | .byte b :: ps => (content? ps).map (b :: ·)
  | .unit n :: ps =>
    if Utf16.isTrailing n then none
    else if Utf16.isLeading n then
      match ps with
      | .unit m :: ps =>
        if Utf16.isTrailing m then (content? ps).map (encodeChar (Utf16.pair n m) ++ ·) else none
      | _ => none
    else (content? ps).map (encodeChar (Char.ofNat n) ++ ·)

/-- The string whose opening quote was read. -/
def string? (s : Bytes) : Option (Bytes × Bytes) :=
  (pieces? s).bind fun (ps, rest) => (content? ps).map fun x => (x, rest)

-- --------------------------------------------------------------------
-- Numbers and names

def dropSign (isSign : UInt8 → Bool) : Bytes → Bytes
  | [] => []
  | b :: s => if isSign b then s else b :: s

/-- What follows one digit or more. -/
def digits? : Bytes → Option Bytes
  | [] => none
  | b :: s => if Byte.isDigit b then some (s.dropWhile Byte.isDigit) else none

def integer? : Bytes → Option Bytes
  | [] => none
  | b :: s => if b = 0x30 then some s else digits? (b :: s)

/-- What follows a part of a number that may be absent. -/
def part? (opens : UInt8 → Bool) (read? : Bytes → Option Bytes) : Bytes → Option Bytes
  | [] => some []
  | b :: s => if opens b then read? s else some (b :: s)

def isNumber (s : Bytes) : Bool :=
  let signs := fun b => b = Byte.plus || b = Byte.minus
  ((integer? (dropSign (· = Byte.minus) s)).bind fun s =>
    (part? (· = Byte.dot) digits? s).bind
      (part? (fun b => b = 0x65 || b = 0x45) fun s => digits? (dropSign signs s))) = some []

def bare? (w : Bytes) : Option Value :=
  if isNumber w then some (.number w)
  else if w = bytes "null" then some .null
  else if w = bytes "true" then some (.boolean true)
  else if w = bytes "false" then some (.boolean false)
  else none

-- --------------------------------------------------------------------
-- Values

/-- The bytes that numbers and names are made of. -/
def isBare (b : UInt8) : Bool :=
  Byte.isDigit b || (0x61 ≤ b && b ≤ 0x7A) || b = 0x45 || b = Byte.plus || b = Byte.minus ||
    b = Byte.dot

section
variable {α : Type} (item? : Bytes → Option (α × Bytes))

/-- Items with commas between them up to `close`, at most as many as the number says. -/
def items? (close : UInt8) : Nat → Bytes → Option (List α × Bytes)
  | 0, _ => none
  | n + 1, s =>
    (item? s).bind fun (x, s) =>
      match skip s with
      | [] => none
      | b :: s =>
        if b = close then some ([x], s)
        else if b = Byte.comma then (items? close n s).map fun (xs, rest) => (x :: xs, rest)
        else none

/-- No items, or items with commas between them, up to `close`. -/
def group? (close : UInt8) (s : Bytes) : Option (List α × Bytes) :=
  match skip s with
  | [] => none
  | b :: rest => if b = close then some ([], rest) else items? item? close s.length s

def member? (s : Bytes) : Option ((Bytes × α) × Bytes) :=
  match skip s with
  | [] => none
  | b :: s =>
    if b = Byte.quote then
      (string? s).bind fun (key, s) =>
        match skip s with
        | [] => none
        | b :: s =>
          if b = Byte.colon then (item? s).map fun (v, rest) => ((key, v), rest) else none
    else none

end

/-- A value nested at most as deep as the number says, and what follows it. -/
def value? : Nat → Bytes → Option (Value × Bytes)
  | 0, _ => none
  | n + 1, s =>
    match skip s with
    | [] => none
    | b :: s =>
      if b = Byte.quote then (string? s).map fun (x, rest) => (.string x, rest)
      else if b = 0x5B then (group? (value? n) 0x5D s).map fun (vs, rest) => (.array vs, rest)
      else if b = 0x7B then
        (group? (member? (value? n)) 0x7D s).map fun (ms, rest) => (.object ms, rest)
      else (bare? ((b :: s).takeWhile isBare)).map fun v => (v, (b :: s).dropWhile isBare)

/-- The value of a JSON text. No value is nested deeper than its text is long. -/
def read? (s : Bytes) : Option Value :=
  if Utf8.valid s then
    (value? s.length s).bind fun (v, rest) => if skip rest = [] then some v else none
  else none

example : read? (bytes "\x7b\"a\": [1, -2.5e+3, null], \"\\ud83d\\ude00\": \x7b\x7d \x7d") =
    some (.object [(bytes "a", .array [.number (bytes "1"), .number (bytes "-2.5e+3"), .null]),
      (bytes "😀", .object [])]) := by rfl

example : [bytes "[1,]", bytes "01", bytes "\"\\ud83d\"", bytes "\"\t\"", bytes "\"a"].map
    (fun s => (read? s).isSome) = [false, false, false, false, false] := by rfl

-- --------------------------------------------------------------------
-- Text that is safe on a line

/-- UTF-8 without a newline. -/
structure Clean (s : Bytes) : Prop where
  valid : Utf8.valid s = true
  isLine : IsLine s

theorem Clean.append {s t : Bytes} (hs : Clean s) (ht : Clean t) : Clean (s ++ t) where
  valid := by
    obtain ⟨cs, rfl⟩ := Utf8.valid_iff_encode.mp hs.valid
    obtain ⟨ds, rfl⟩ := Utf8.valid_iff_encode.mp ht.valid
    exact Utf8.valid_iff_encode.mpr ⟨cs ++ ds, List.flatMap_append.symm⟩
  isLine h := (List.mem_append.mp h).elim hs.isLine ht.isLine

/-- A byte that is a character, and no newline. -/
def isSafe (b : UInt8) : Bool := b < 0x80 && b ≠ Byte.newline

theorem clean_of_safe {s : Bytes} (h : s.all isSafe = true) : Clean s where
  valid := by
    induction s with
    | nil => rfl
    | cons b s ih =>
      simp only [List.all_cons, Bool.and_eq_true, isSafe, decide_eq_true_eq] at h
      rw [Utf8.valid.eq_def]
      simpa [h.1.1] using ih h.2
  isLine hmem := by simpa [isSafe] using List.all_eq_true.mp h _ hmem

@[simp] theorem clean_nil : Clean [] := clean_of_safe rfl

theorem clean_joinWith {sep : Bytes} (hsep : Clean sep) {ls : List Bytes}
    (h : ∀ l ∈ ls, Clean l) : Clean (joinWith sep ls) := by
  induction ls with
  | nil => exact clean_nil
  | cons l ls ih =>
    obtain ⟨hl, hls⟩ := List.forall_mem_cons.mp h
    cases ls with
    | nil => exact hl
    | cons m ms => exact (hl.append hsep).append (ih hls)

theorem clean_flatMap {α : Type} {f : α → Bytes} (h : ∀ x, Clean (f x)) (xs : List α) :
    Clean (xs.flatMap f) := by
  induction xs with
  | nil => exact clean_nil
  | cons x xs ih => exact (h x).append ih

-- --------------------------------------------------------------------
-- Strings

open Trace (jsonChar jsonString jsonMember jsonObject)

/-- A byte that stands for itself in a string. -/
def IsPlain (b : UInt8) : Prop := ¬ b < 0x20 ∧ b ≠ Byte.quote ∧ b ≠ Byte.backslash

/-- A character that needs no backslash is written in plain bytes. -/
theorem isPlain_of_mem {c : Char} (h : 0x20 ≤ c.toNat ∧ c.toNat ≠ 0x22 ∧ c.toNat ≠ 0x5C) :
    ∀ b ∈ encodeChar c, IsPlain b := by
  intro b hb
  have htoNat : b.toNat = c.toNat ∨ 0x80 ≤ b.toNat := by
    by_cases hc : c.toNat < 0x80
    · rw [Utf8.encodeChar_eq, if_pos hc, List.mem_singleton] at hb
      rw [hb, Utf8.toNat_ofNat (by omega)]
      exact .inl rfl
    · exact .inr (Utf8.isWide_iff.mp (by simpa [Utf8.isWide_of_mem_encodeChar hb] using hc))
  refine ⟨fun hlt => ?_, ?_, ?_⟩
  · have hlow : b.toNat < 0x20 := UInt8.lt_iff_toNat_lt.mp hlt
    omega
  · rintro rfl
    have hquote : Byte.quote.toNat = 0x22 := rfl
    omega
  · rintro rfl
    have hback : Byte.backslash.toNat = 0x5C := rfl
    omega

/-- A character is written behind a backslash by a letter or in hexadecimal, or as it is. -/
theorem jsonChar_cases (c : Char) :
    (∃ e, (e, c.toNat) ∈ letters ∧ jsonChar c = [Byte.backslash, e]) ∨
      (c.toNat < 0x10000 ∧ jsonChar c = Byte.backslash :: 0x75 :: hex 4 c.toNat) ∨
      (jsonChar c = encodeChar c ∧ ∀ b ∈ encodeChar c, IsPlain b) := by
  generalize ht : jsonChar c = t
  simp only [jsonChar] at ht
  split_ifs at ht with h₁ h₂ h₃ h₄ h₅ h₆ h₇ h₈ <;> subst ht
  · exact .inl ⟨0x22, by simp [letters, h₁], rfl⟩
  · exact .inl ⟨0x5C, by simp [letters, h₂], rfl⟩
  · exact .inl ⟨0x62, by simp [letters, h₃], rfl⟩
  · exact .inl ⟨0x66, by simp [letters, h₄], rfl⟩
  · exact .inl ⟨0x6E, by simp [letters, h₅], rfl⟩
  · exact .inl ⟨0x72, by simp [letters, h₆], rfl⟩
  · exact .inl ⟨0x74, by simp [letters, h₇], rfl⟩
  · exact .inr (.inl ⟨by omega, rfl⟩)
  · exact .inr (.inr ⟨rfl, isPlain_of_mem (by omega)⟩)

theorem letters_spec : ∀ p ∈ letters,
    Assoc.get? p.1 letters = some p.2 ∧ isSafe p.1 = true ∧ p.1 ≠ 0x75 ∧ p.2 < 0x80 := by
  decide

theorem hexDigit_spec : ∀ n < 16, Byte.isHexDigit (Byte.hexDigit n) = true ∧
    Byte.digitValue (Byte.hexDigit n) = n ∧ isSafe (Byte.hexDigit n) = true := by
  decide

theorem unit?_hex {n : Nat} (h : n < 0x10000) : unit? (hex 4 n) = some n := by
  have hlt (m : Nat) : m % 16 < 16 := Nat.mod_lt _ (by decide)
  simp [unit?, hex, hexDigit_spec _ (hlt _)]
  omega

theorem clean_hex (width n : Nat) : Clean (hex width n) := by
  induction width generalizing n with
  | zero => exact clean_nil
  | succ width ih =>
    obtain ⟨-, -, hsafe⟩ := hexDigit_spec (n % 16) (Nat.mod_lt _ (by decide))
    exact (ih _).append (clean_of_safe (by simpa using hsafe))

theorem clean_encodeChar {c : Char} (h : ∀ b ∈ encodeChar c, IsPlain b) : Clean (encodeChar c) where
  valid := Utf8.valid_iff_encode.mpr ⟨[c], (List.append_nil _).symm⟩
  isLine hmem := (h _ hmem).1 (by decide)

theorem clean_jsonChar (c : Char) : Clean (jsonChar c) := by
  obtain ⟨e, he, h⟩ | ⟨-, h⟩ | ⟨h, hplain⟩ := jsonChar_cases c
  · obtain ⟨-, hsafe, -, -⟩ := letters_spec _ he
    rw [h]
    exact clean_of_safe (Bool.and_eq_true_iff.mpr ⟨rfl, by simpa using hsafe⟩)
  · rw [h]
    exact (clean_of_safe rfl : Clean [Byte.backslash, 0x75]).append (clean_hex 4 _)
  · rw [h]
    exact clean_encodeChar hplain

theorem clean_jsonString (s : Bytes) : Clean (jsonString s) :=
  ((clean_of_safe rfl : Clean [Byte.quote]).append (clean_flatMap clean_jsonChar _)).append
    (clean_of_safe rfl)

theorem content?_unit {c : Char} (h : c.toNat < 0x10000) (ps : List Piece) :
    content? (.unit c.toNat :: ps) = (content? ps).map (encodeChar c ++ ·) := by
  have hvalid : c.toNat.isValidChar := c.valid
  have htrailing : Utf16.isTrailing c.toNat = false := by
    simp [Utf16.isTrailing]
    rcases hvalid with h | h <;> omega
  have hleading : Utf16.isLeading c.toNat = false := by
    simp [Utf16.isLeading]
    rcases hvalid with h | h <;> omega
  rw [content?.eq_def]
  simp [htrailing, hleading]

theorem pieces?_plain {t : Bytes} (h : ∀ b ∈ t, IsPlain b) (s : Bytes) :
    pieces? (t ++ s) = (pieces? s).map fun (ps, rest) => (t.map .byte ++ ps, rest) := by
  induction t with
  | nil => simp
  | cons b t ih =>
    obtain ⟨⟨hctl, hquote, hback⟩, ht⟩ := List.forall_mem_cons.mp h
    rw [List.cons_append, pieces?.eq_def]
    simp [hctl, hquote, hback, ih ht, Function.comp_def]

theorem content?_plain (t : Bytes) (ps : List Piece) :
    content? (t.map .byte ++ ps) = (content? ps).map (t ++ ·) := by
  induction t with
  | nil => simp
  | cons b t ih => simp [content?, ih, Function.comp_def]

/-- Pieces in front of a string put their content in front of it. -/
theorem string?_of_pieces {s t x : Bytes} (qs : List Piece)
    (hpieces : pieces? t = (pieces? s).map fun (ps, rest) => (qs ++ ps, rest))
    (hcontent : ∀ ps, content? (qs ++ ps) = (content? ps).map (x ++ ·)) :
    string? t = (string? s).map fun (y, rest) => (x ++ y, rest) := by
  rw [string?, string?, hpieces]
  cases pieces? s with
  | none => rfl
  | some p => simp [hcontent, Function.comp_def]

/-- What a character is written as is read as that character, whatever follows. -/
theorem string?_jsonChar (c : Char) (s : Bytes) :
    string? (jsonChar c ++ s) = (string? s).map fun (x, rest) => (encodeChar c ++ x, rest) := by
  obtain ⟨e, he, h⟩ | ⟨hlt, h⟩ | ⟨h, hplain⟩ := jsonChar_cases c
  · obtain ⟨hget, -, hne, hlt⟩ := letters_spec _ he
    rw [h]
    exact string?_of_pieces [.unit c.toNat] (pieces?_letter hne hget s)
      (content?_unit (Nat.lt_trans hlt (by decide)))
  · rw [h]
    exact string?_of_pieces [.unit c.toNat] (pieces?_unit (unit?_hex hlt) s) (content?_unit hlt)
  · rw [h]
    exact string?_of_pieces _ (pieces?_plain hplain s) (content?_plain _)

theorem string?_chars (cs : List Char) (rest : Bytes) :
    string? (cs.flatMap jsonChar ++ Byte.quote :: rest) = some (Utf8.encode cs, rest) := by
  induction cs with
  | nil => simp [string?, content?, Utf8.encode]
  | cons c cs ih =>
    rw [List.flatMap_cons, List.append_assoc, string?_jsonChar, ih]
    rfl

-- --------------------------------------------------------------------
-- Numbers

theorem toDigits_head {n : Nat} (h : 0 < n) :
    ∃ m cs, 0 < m ∧ m < 10 ∧ Nat.toDigits 10 n = m.digitChar :: cs := by
  induction n using Nat.strongRecOn with
  | ind n ih =>
    by_cases hlt : n < 10
    · exact ⟨n, [], h, hlt, Nat.toDigits_of_lt_base hlt⟩
    · obtain ⟨m, cs, hpos, hm, heq⟩ := ih (n / 10) (by omega) (by omega)
      refine ⟨m, cs ++ [(n % 10).digitChar], hpos, hm, ?_⟩
      rw [Nat.toDigits_of_base_le (by decide) (Nat.le_of_not_lt hlt), heq, List.cons_append]

theorem digitChar_ne : ∀ m < 10, 0 < m → m.digitChar.toNat.toUInt8 ≠ 0x30 := by decide

/-- A number has a first digit, and it is zero only in zero itself. -/
theorem decimal_cons (n : Nat) : ∃ d ds, decimal n = d :: ds ∧ (d = 0x30 → ds = []) := by
  obtain rfl | h := Nat.eq_zero_or_pos n
  · exact ⟨0x30, [], rfl, fun _ => rfl⟩
  · obtain ⟨m, cs, hpos, hm, heq⟩ := toDigits_head h
    refine ⟨_, _, by rw [decimal, heq, List.map_cons], fun hzero => ?_⟩
    exact absurd hzero (digitChar_ne m hm hpos)

theorem isNumber_decimal (n : Nat) : isNumber (decimal n) = true := by
  obtain ⟨d, ds, h, hzero⟩ := decimal_cons n
  have hdigit : ∀ b ∈ d :: ds, Byte.isDigit b = true := by
    rw [← h]
    exact fun b => isDigit_of_mem_decimal
  have hminus : d ≠ Byte.minus := by
    rintro rfl
    exact absurd (hdigit _ List.mem_cons_self) (by decide)
  have hrest : ds.dropWhile Byte.isDigit = [] :=
    List.dropWhile_eq_nil_iff.mpr fun b hb => hdigit b (List.mem_cons_of_mem _ hb)
  have hinteger : integer? (d :: ds) = some [] := by
    by_cases hd : d = 0x30
    · simp [integer?, hd, hzero hd]
    · simp [integer?, hd, digits?, hdigit d List.mem_cons_self, hrest]
  simp [isNumber, h, dropSign, hminus, hinteger, part?]

theorem isSafe_of_isDigit {b : UInt8} (h : Byte.isDigit b = true) : isSafe b = true := by
  simp only [Byte.isDigit, Bool.and_eq_true, decide_eq_true_eq, UInt8.le_iff_toNat_le,
    UInt8.reduceToNat] at h
  have hne : b ≠ Byte.newline := by
    rintro rfl
    exact absurd h.1 (by decide)
  simp [isSafe, UInt8.lt_iff_toNat_lt, hne]
  omega

theorem clean_decimal (n : Nat) : Clean (decimal n) :=
  clean_of_safe (List.all_eq_true.mpr fun _ hb => isSafe_of_isDigit (isDigit_of_mem_decimal hb))

-- --------------------------------------------------------------------
-- Values

/-- What may follow a value: nothing that continues a number or a name. -/
def Ends (rest : Bytes) : Prop := ∀ b ∈ rest.head?, isBare b = false

/-- A text that is read as a value nested at most `depth` deep, whatever follows. -/
structure Writes (depth : Nat) (t : Bytes) (v : Value) : Prop where
  clean : Clean t
  reads : ∀ n, depth ≤ n → ∀ rest, Ends rest → value? n (t ++ rest) = some (v, rest)

theorem Writes.mono {d d' : Nat} {t : Bytes} {v : Value} (h : Writes d t v) (hle : d ≤ d') :
    Writes d' t v :=
  ⟨h.clean, fun n hn => h.reads n (hle.trans hn)⟩

theorem ends_cons {b : UInt8} (h : isBare b = false) (s : Bytes) : Ends (b :: s) := by
  rintro _ ⟨⟩
  exact h

theorem skip_cons {b : UInt8} (h : isBlank b = false) (s : Bytes) : skip (b :: s) = b :: s := by
  simp [skip, h]

theorem value?_quote (n : Nat) (s : Bytes) : value? (n + 1) (Byte.quote :: s) =
    (string? s).map fun (x, rest) => (.string x, rest) := by
  rw [value?, skip_cons rfl]
  simp

theorem value?_brace (n : Nat) (s : Bytes) : value? (n + 1) (0x7B :: s) =
    (group? (member? (value? n)) 0x7D s).map fun (ms, rest) => (.object ms, rest) := by
  rw [value?, skip_cons rfl]
  simp [(by decide : (0x7B : UInt8) ≠ Byte.quote)]

theorem writes_string (s : Bytes) :
    Writes 1 (jsonString s) (.string (Utf8.encode (Utf8.chars s))) where
  clean := clean_jsonString s
  reads n hn rest _ := by
    obtain ⟨n, rfl⟩ := Nat.exists_eq_succ_of_ne_zero (Nat.one_le_iff_ne_zero.mp hn)
    have hstring := string?_chars (Utf8.chars s) rest
    rw [jsonString, List.append_assoc, List.cons_append, value?_quote]
    simp [hstring]

theorem value?_digit {d : UInt8} (hd : Byte.isDigit d = true) (n : Nat) (s : Bytes) :
    value? (n + 1) (d :: s) = (bare? ((d :: s).takeWhile isBare)).map fun v =>
      (v, (d :: s).dropWhile isBare) := by
  have hne (x : UInt8) (hx : Byte.isDigit x = false) : d ≠ x := by
    rintro rfl
    simp [hx] at hd
  have hblank : isBlank d = false := by
    simp [isBlank, hne Byte.space rfl, hne Byte.tab rfl, hne Byte.newline rfl,
      hne Byte.carriageReturn rfl]
  rw [value?, skip_cons hblank]
  simp [hne Byte.quote rfl, hne 0x5B rfl, hne 0x7B rfl]

theorem writes_decimal (k : Nat) : Writes 1 (decimal k) (.number (decimal k)) where
  clean := clean_decimal k
  reads n hn rest hrest := by
    obtain ⟨n, rfl⟩ := Nat.exists_eq_succ_of_ne_zero (Nat.one_le_iff_ne_zero.mp hn)
    obtain ⟨d, ds, h, -⟩ := decimal_cons k
    have hdigit : ∀ b ∈ d :: ds, Byte.isDigit b = true := by
      rw [← h]
      exact fun b => isDigit_of_mem_decimal
    have hbare : ∀ b ∈ d :: ds, isBare b = true := fun b hb => by simp [isBare, hdigit b hb]
    have hstop : rest.takeWhile isBare = [] ∧ rest.dropWhile isBare = rest := by
      cases rest with
      | nil => exact ⟨rfl, rfl⟩
      | cons b rest => simp [hrest b rfl]
    have hnumber : bare? (d :: ds) = some (.number (d :: ds)) := by
      rw [bare?, ← h, if_pos (isNumber_decimal k)]
    rw [h, List.cons_append, value?_digit (hdigit d List.mem_cons_self), ← List.cons_append,
      List.takeWhile_append_of_pos hbare, List.dropWhile_append_of_pos hbare, hstop.1, hstop.2,
      List.append_nil, hnumber]
    rfl

theorem member?_jsonMember {α : Type} {item? : Bytes → Option (α × Bytes)} {t rest : Bytes} {v : α}
    (h : item? (t ++ rest) = some (v, rest)) (key : Bytes) :
    member? item? (jsonMember key t ++ rest) = some ((Utf8.encode (Utf8.chars key), v), rest) := by
  have hsplit : jsonMember key t ++ rest = Byte.quote ::
      ((Utf8.chars key).flatMap jsonChar ++ Byte.quote :: Byte.colon :: (t ++ rest)) := by
    simp [jsonMember, jsonString]
    rfl
  rw [hsplit, member?, skip_cons rfl]
  simp [string?_chars, skip_cons (b := Byte.colon) rfl, h]

/-- Items that are read one by one are read in a row. -/
theorem items?_joinWith {α : Type} {item? : Bytes → Option (α × Bytes)} {rs : List (Bytes × α)}
    (hne : rs ≠ [])
    (h : ∀ r ∈ rs, ∀ rest, Ends rest → item? (r.1 ++ rest) = some (r.2, rest)) {n : Nat}
    (hn : rs.length ≤ n) (rest : Bytes) :
    items? item? 0x7D n (joinWith (bytes ",") (rs.map Prod.fst) ++ 0x7D :: rest) =
      some (rs.map Prod.snd, rest) := by
  induction rs generalizing n with
  | nil => exact absurd rfl hne
  | cons r rs ih =>
    obtain ⟨hr, hrs⟩ := List.forall_mem_cons.mp h
    cases n with
    | zero => exact absurd hn (Nat.not_succ_le_zero _)
    | succ n =>
      cases rs with
      | nil =>
        have hlast := hr _ (ends_cons (b := 0x7D) rfl rest)
        simp [items?, joinWith, hlast, skip_cons (b := 0x7D) rfl]
      | cons q qs =>
        -- A comma continues no word, so the first item ends there and the others are left.
        have hjoin : joinWith (bytes ",") ((r :: q :: qs).map Prod.fst) ++ 0x7D :: rest =
            r.1 ++ Byte.comma ::
              (joinWith (bytes ",") ((q :: qs).map Prod.fst) ++ 0x7D :: rest) := by
          rw [List.map_cons, joinWith_cons _ _ (by simp), List.append_assoc, List.append_assoc]
          rfl
        rw [hjoin, items?, hr _ (ends_cons rfl _), Option.bind_some]
        simp only [skip_cons (b := Byte.comma) rfl, if_true]
        rw [if_neg (by decide), ih (List.cons_ne_nil q qs) hrs (Nat.le_of_succ_le_succ hn)]
        rfl

theorem length_le_joinWith (ls : List Bytes) :
    ls.length ≤ (joinWith (bytes ",") ls).length + 1 := by
  induction ls with
  | nil => simp
  | cons l ls ih =>
    cases ls with
    | nil => simp
    | cons m ms =>
      rw [joinWith_cons _ _ (List.cons_ne_nil m ms)]
      have hsep : (bytes ",").length = 1 := rfl
      simp only [List.length_append, List.length_cons] at ih ⊢
      omega

theorem joinWith_head (sep : Bytes) {l : Bytes} {b : UInt8} {s : Bytes} (h : l = b :: s)
    (ls : List Bytes) : ∃ t, joinWith sep (l :: ls) = b :: t := by
  cases ls with
  | nil => exact ⟨s, h⟩
  | cons m ms => exact ⟨_, by rw [h]; rfl⟩

theorem group?_joinWith {α : Type} {item? : Bytes → Option (α × Bytes)} {rs : List (Bytes × α)}
    (hquote : ∀ r ∈ rs, ∃ s, r.1 = Byte.quote :: s)
    (h : ∀ r ∈ rs, ∀ rest, Ends rest → item? (r.1 ++ rest) = some (r.2, rest)) (rest : Bytes) :
    group? item? 0x7D (joinWith (bytes ",") (rs.map Prod.fst) ++ 0x7D :: rest) =
      some (rs.map Prod.snd, rest) := by
  cases rs with
  | nil => simp [group?, joinWith, skip_cons (b := 0x7D) rfl]
  | cons r rs =>
    have hlength : (r :: rs).length ≤
        (joinWith (bytes ",") ((r :: rs).map Prod.fst) ++ 0x7D :: rest).length := by
      have := length_le_joinWith ((r :: rs).map Prod.fst)
      simp only [List.length_map, List.length_append, List.length_cons] at this ⊢
      omega
    obtain ⟨s, hs⟩ := hquote r List.mem_cons_self
    obtain ⟨t, ht⟩ := joinWith_head (bytes ",") hs (rs.map Prod.fst)
    have hskip : skip (joinWith (bytes ",") ((r :: rs).map Prod.fst) ++ 0x7D :: rest) =
        Byte.quote :: (t ++ 0x7D :: rest) := by
      rw [List.map_cons, ht]
      exact skip_cons rfl _
    rw [group?, hskip]
    exact items?_joinWith (List.cons_ne_nil r rs) h hlength rest

theorem clean_jsonMember {t : Bytes} (ht : Clean t) (key : Bytes) : Clean (jsonMember key t) :=
  ((clean_jsonString key).append (clean_of_safe rfl)).append ht

theorem exists_jsonMember (key t : Bytes) : ∃ s, jsonMember key t = Byte.quote :: s := ⟨_, rfl⟩

/-- An object is read as its members in order, if each value is read. -/
theorem writes_object {depth : Nat} {rows : List (Bytes × Bytes × Value)}
    (h : ∀ r ∈ rows, Writes depth r.2.1 r.2.2) :
    Writes (depth + 1) (jsonObject (rows.map fun r => jsonMember r.1 r.2.1))
      (.object (rows.map fun r => (Utf8.encode (Utf8.chars r.1), r.2.2))) where
  clean := by
    refine ((clean_of_safe rfl : Clean (bytes "\x7b")).append
      (clean_joinWith (clean_of_safe rfl) ?_)).append (clean_of_safe rfl)
    rintro _ hl
    obtain ⟨r, hr, rfl⟩ := List.mem_map.mp hl
    exact clean_jsonMember (h r hr).clean _
  reads n hn rest _ := by
    cases n with
    | zero => exact absurd hn (Nat.not_succ_le_zero _)
    | succ n =>
      let pair := fun r : Bytes × Bytes × Value =>
        (jsonMember r.1 r.2.1, (Utf8.encode (Utf8.chars r.1), r.2.2))
      have hmember : ∀ q ∈ rows.map pair, ∀ rest, Ends rest →
          member? (value? n) (q.1 ++ rest) = some (q.2, rest) := by
        rintro _ hq rest hrest
        obtain ⟨r, hr, rfl⟩ := List.mem_map.mp hq
        exact member?_jsonMember ((h r hr).reads n (Nat.le_of_succ_le_succ hn) rest hrest) _
      have hquote : ∀ q ∈ rows.map pair, ∃ s, q.1 = Byte.quote :: s := by
        rintro _ hq
        obtain ⟨r, hr, rfl⟩ := List.mem_map.mp hq
        exact exists_jsonMember _ _
      have hgroup := group?_joinWith hquote hmember rest
      have htext : jsonObject (rows.map fun r => jsonMember r.1 r.2.1) ++ rest =
          0x7B :: (joinWith (bytes ",") ((rows.map pair).map Prod.fst) ++ 0x7D :: rest) := by
        simp [jsonObject, pair, Function.comp_def]
        rfl
      rw [htext, value?_brace, hgroup]
      simp [pair, Function.comp_def]

theorem Writes.read?_eq {depth : Nat} {t : Bytes} {v : Value} (h : Writes depth t v)
    (hdepth : depth ≤ t.length) : read? t = some v := by
  have hvalue := h.reads t.length hdepth [] nofun
  rw [List.append_nil] at hvalue
  rw [read?, if_pos h.clean.valid, hvalue]
  rfl

end Restyler.Json
