import Restyler.Utf8

/-!
# Reading and writing UTF-8

Each well-formed sequence is what its character is written as, and what a character is written as is
read as that character, whatever follows. Hence the symbols of a byte string have the string as
their bytes, and the symbols of encoded characters are these characters. The strings without stray
bytes are those that characters are written as. A byte below 0x80 is a character of its own, and a
longer sequence holds none.
-/

namespace Restyler.Utf8

-- --------------------------------------------------------------------
-- Sequences of bytes and their characters

theorem toNat_ofNat {n : Nat} (h : n < 256) : (UInt8.ofNat n).toNat = n := by
  rw [UInt8.toNat_ofNat']
  omega

theorem toNat_charOfNat {n : Nat} (h : n.isValidChar) : (Char.ofNat n).toNat = n := by
  rw [Char.ofNat, dif_pos h]
  rfl

theorem toNat_lt (c : Char) : c.toNat < 0x110000 := by
  rcases c.valid with h | ⟨-, h⟩
  · exact Nat.lt_trans h (by decide)
  · exact h

theorem scalar?_eq_some {least n : Nat} {c : Char} :
    scalar? least n = some c ↔ least ≤ n ∧ c.toNat = n := by
  unfold scalar?
  constructor
  · intro h
    split at h
    · next hn =>
      rw [← Option.some.inj h]
      exact ⟨hn.1, toNat_charOfNat hn.2⟩
    · exact absurd h nofun
  · rintro ⟨hle, rfl⟩
    rw [if_pos ⟨hle, c.valid⟩, Char.ofNat_toNat]

theorem isContinuation_iff {b : UInt8} :
    isContinuation b = true ↔ 0x80 ≤ b.toNat ∧ b.toNat < 0xC0 := by
  simp [isContinuation, UInt8.le_iff_toNat_le, UInt8.lt_iff_toNat_lt]

section
variable {b₀ b₁ b₂ b₃ : UInt8} {c : Char}

theorem two?_eq_some :
    two? b₀ b₁ = some c ↔ 0x80 ≤ c.toNat ∧ c.toNat < 0x800 ∧
      b₀.toNat = c.toNat / 64 + 0xC0 ∧ b₁.toNat = c.toNat % 64 + 0x80 := by
  simp only [two?, Option.ite_none_right_eq_some, scalar?_eq_some, Bool.and_eq_true,
    isContinuation_iff, decide_eq_true_eq, UInt8.le_iff_toNat_le, UInt8.lt_iff_toNat_lt,
    UInt8.reduceToNat]
  omega

theorem three?_eq_some :
    three? b₀ b₁ b₂ = some c ↔ 0x800 ≤ c.toNat ∧ c.toNat < 0x10000 ∧
      b₀.toNat = c.toNat / 4096 + 0xE0 ∧ b₁.toNat = c.toNat / 64 % 64 + 0x80 ∧
      b₂.toNat = c.toNat % 64 + 0x80 := by
  simp only [three?, Option.ite_none_right_eq_some, scalar?_eq_some, Bool.and_eq_true,
    isContinuation_iff, decide_eq_true_eq, UInt8.le_iff_toNat_le, UInt8.lt_iff_toNat_lt,
    UInt8.reduceToNat]
  omega

theorem four?_eq_some :
    four? b₀ b₁ b₂ b₃ = some c ↔ 0x10000 ≤ c.toNat ∧
      b₀.toNat = c.toNat / 262144 + 0xF0 ∧ b₁.toNat = c.toNat / 4096 % 64 + 0x80 ∧
      b₂.toNat = c.toNat / 64 % 64 + 0x80 ∧ b₃.toNat = c.toNat % 64 + 0x80 := by
  have hc := toNat_lt c
  simp only [four?, Option.ite_none_right_eq_some, scalar?_eq_some, Bool.and_eq_true,
    isContinuation_iff, decide_eq_true_eq, UInt8.le_iff_toNat_le, UInt8.lt_iff_toNat_lt,
    UInt8.reduceToNat]
  omega

end

-- --------------------------------------------------------------------
-- What a character is written as

theorem encodeChar_eq (c : Char) :
    encodeChar c =
      if c.toNat < 0x80 then [UInt8.ofNat c.toNat]
      else if c.toNat < 0x800 then
        [UInt8.ofNat (c.toNat / 64 % 32 + 0xC0), UInt8.ofNat (c.toNat % 64 + 0x80)]
      else if c.toNat < 0x10000 then
        [UInt8.ofNat (c.toNat / 4096 % 16 + 0xE0), UInt8.ofNat (c.toNat / 64 % 64 + 0x80),
          UInt8.ofNat (c.toNat % 64 + 0x80)]
      else
        [UInt8.ofNat (c.toNat / 262144 % 8 + 0xF0), UInt8.ofNat (c.toNat / 4096 % 64 + 0x80),
          UInt8.ofNat (c.toNat / 64 % 64 + 0x80), UInt8.ofNat (c.toNat % 64 + 0x80)] := by
  simp only [Nat.lt_succ_iff]
  rfl

/-- The lengths of what a character is written as, with the sequence that is read back. -/
theorem encodeChar_cases (c : Char) :
    (c.toNat < 0x80 ∧ encodeChar c = [UInt8.ofNat c.toNat]) ∨
      (∃ b₀ b₁, encodeChar c = [b₀, b₁] ∧ two? b₀ b₁ = some c) ∨
      (∃ b₀ b₁ b₂, encodeChar c = [b₀, b₁, b₂] ∧ three? b₀ b₁ b₂ = some c) ∨
      ∃ b₀ b₁ b₂ b₃, encodeChar c = [b₀, b₁, b₂, b₃] ∧ four? b₀ b₁ b₂ b₃ = some c := by
  have hc := toNat_lt c
  rw [encodeChar_eq]
  split
  · next h => exact .inl ⟨h, rfl⟩
  split
  · refine .inr (.inl ⟨_, _, rfl, two?_eq_some.mpr ?_⟩)
    rw [toNat_ofNat (by omega), toNat_ofNat (by omega)]
    omega
  split
  · refine .inr (.inr (.inl ⟨_, _, _, rfl, three?_eq_some.mpr ?_⟩))
    rw [toNat_ofNat (by omega), toNat_ofNat (by omega), toNat_ofNat (by omega)]
    omega
  · refine .inr (.inr (.inr ⟨_, _, _, _, rfl, four?_eq_some.mpr ?_⟩))
    rw [toNat_ofNat (by omega), toNat_ofNat (by omega), toNat_ofNat (by omega),
      toNat_ofNat (by omega)]
    omega

section
variable {b₀ b₁ b₂ b₃ : UInt8} {c : Char}

theorem encodeChar_of_two? (h : two? b₀ b₁ = some c) : encodeChar c = [b₀, b₁] := by
  obtain ⟨hlow, hhigh, h₀, h₁⟩ := two?_eq_some.mp h
  rw [encodeChar_eq, if_neg (by omega), if_pos hhigh, ← UInt8.ofNat_toNat (x := b₀),
    ← UInt8.ofNat_toNat (x := b₁), h₀, h₁]
  congr 3
  omega

theorem encodeChar_of_three? (h : three? b₀ b₁ b₂ = some c) : encodeChar c = [b₀, b₁, b₂] := by
  obtain ⟨hlow, hhigh, h₀, h₁, h₂⟩ := three?_eq_some.mp h
  rw [encodeChar_eq, if_neg (by omega), if_neg (by omega), if_pos hhigh,
    ← UInt8.ofNat_toNat (x := b₀), ← UInt8.ofNat_toNat (x := b₁), ← UInt8.ofNat_toNat (x := b₂),
    h₀, h₁, h₂]
  congr 3
  omega

theorem encodeChar_of_four? (h : four? b₀ b₁ b₂ b₃ = some c) :
    encodeChar c = [b₀, b₁, b₂, b₃] := by
  have hc := toNat_lt c
  obtain ⟨hlow, h₀, h₁, h₂, h₃⟩ := four?_eq_some.mp h
  rw [encodeChar_eq, if_neg (by omega), if_neg (by omega), if_neg (by omega),
    ← UInt8.ofNat_toNat (x := b₀), ← UInt8.ofNat_toNat (x := b₁), ← UInt8.ofNat_toNat (x := b₂),
    ← UInt8.ofNat_toNat (x := b₃), h₀, h₁, h₂, h₃]
  congr 3
  omega

/-- A first byte decides the length, so a longer sequence is not taken for a shorter one. -/
theorem two?_of_le (h : 0xE0 ≤ b₀.toNat) : two? b₀ b₁ = none := by
  cases hc : two? b₀ b₁ with
  | none => rfl
  | some c =>
    obtain ⟨hlow, hhigh, h₀, h₁⟩ := two?_eq_some.mp hc
    omega

theorem three?_of_le (h : 0xF0 ≤ b₀.toNat) : three? b₀ b₁ b₂ = none := by
  cases hc : three? b₀ b₁ b₂ with
  | none => rfl
  | some c =>
    obtain ⟨hlow, hhigh, h₀, h₁, h₂⟩ := three?_eq_some.mp hc
    omega

end

-- --------------------------------------------------------------------
-- Symbols

theorem lt_iff {b : UInt8} : b < 0x80 ↔ b.toNat < 0x80 := UInt8.lt_iff_toNat_lt

/-- A character in front of a text is read first. -/
theorem symbols_encodeChar (c : Char) (s : Bytes) :
    symbols (encodeChar c ++ s) = .char c :: symbols s := by
  rcases encodeChar_cases c with ⟨hc, he⟩ | ⟨b₀, b₁, he, h⟩ | ⟨b₀, b₁, b₂, he, h⟩ |
    ⟨b₀, b₁, b₂, b₃, he, h⟩
  · have hb : UInt8.ofNat c.toNat < 0x80 := by
      rw [lt_iff, toNat_ofNat (by omega)]
      exact hc
    rw [he, List.singleton_append, symbols.eq_def]
    simp only [if_pos hb, toNat_ofNat (show c.toNat < 256 by omega), Char.ofNat_toNat]
  · obtain ⟨hlow, hhigh, h₀, h₁⟩ := two?_eq_some.mp h
    have hb : ¬ b₀ < 0x80 := by
      rw [lt_iff]
      omega
    rw [he, symbols.eq_def]
    simp [hb, h]
  · obtain ⟨hlow, hhigh, h₀, h₁, h₂⟩ := three?_eq_some.mp h
    have hb : ¬ b₀ < 0x80 := by
      rw [lt_iff]
      omega
    have htwo : two? b₀ b₁ = none := two?_of_le (by omega)
    rw [he, symbols.eq_def]
    simp [hb, h, htwo]
  · obtain ⟨hlow, h₀, h₁, h₂, h₃⟩ := four?_eq_some.mp h
    have hb : ¬ b₀ < 0x80 := by
      rw [lt_iff]
      omega
    have htwo : two? b₀ b₁ = none := two?_of_le (by omega)
    have hthree : three? b₀ b₁ b₂ = none := three?_of_le (by omega)
    rw [he, symbols.eq_def]
    simp [hb, h, htwo, hthree]

theorem symbols_encode (cs : List Char) : symbols (encode cs) = cs.map .char := by
  induction cs with
  | nil => rfl
  | cons c cs ih => rw [encode, List.flatMap_cons, symbols_encodeChar, ← encode, ih, List.map_cons]

theorem chars_encode (cs : List Char) : chars (encode cs) = cs := by
  rw [chars, symbols_encode, List.map_map]
  exact List.map_id cs

theorem encode_inj {cs ds : List Char} (h : encode cs = encode ds) : cs = ds := by
  rw [← chars_encode cs, h, chars_encode]

/-- Nothing is lost between bytes and symbols. -/
theorem bytes_symbols (s : Bytes) : (symbols s).flatMap Symbol.bytes = s := by
  fun_induction symbols s with
  | case1 => rfl
  | case2 b s hb ih =>
    have hlt := lt_iff.mp hb
    have hc : (Char.ofNat b.toNat).toNat = b.toNat := toNat_charOfNat (.inl (by omega))
    rw [List.flatMap_cons, ih, Symbol.bytes, encodeChar_eq, if_pos (by omega), hc,
      UInt8.ofNat_toNat]
    rfl
  | case3 b hb => rfl
  | case4 b hb b₁ s c hc ih => rw [List.flatMap_cons, ih, Symbol.bytes, encodeChar_of_two? hc]; rfl
  | case6 b hb b₁ h₁ b₂ s c hc ih =>
    rw [List.flatMap_cons, ih, Symbol.bytes, encodeChar_of_three? hc]
    rfl
  | case8 b hb b₁ h₁ b₂ h₂ b₃ s c hc ih =>
    rw [List.flatMap_cons, ih, Symbol.bytes, encodeChar_of_four? hc]
    rfl
  | case5 b hb b₁ h₁ ih => rw [List.flatMap_cons, ih]; rfl
  | case7 b hb b₁ h₁ b₂ h₂ ih => rw [List.flatMap_cons, ih]; rfl
  | case9 b hb b₁ h₁ b₂ h₂ b₃ s h₃ ih => rw [List.flatMap_cons, ih]; rfl

/-- A text without stray bytes is what its characters are written as. -/
theorem eq_encode_of_symbols {s : Bytes} {cs : List Char} (h : symbols s = cs.map .char) :
    s = encode cs := by
  rw [← bytes_symbols s, h, List.flatMap_map]
  rfl

-- --------------------------------------------------------------------
-- Valid texts

def isChar : Symbol → Bool
  | .char _ => true
  | .stray _ => false

theorem all_isChar {ss : List Symbol} :
    ss.all isChar = true ↔ ∃ cs : List Char, ss = cs.map .char := by
  constructor
  · intro h
    refine ⟨ss.map Symbol.toChar, ?_⟩
    rw [List.map_map, List.map_congr_left fun x hx => ?_, List.map_id]
    cases x with
    | char c => rfl
    | stray b => exact absurd (List.all_eq_true.mp h _ hx) nofun
  · rintro ⟨cs, rfl⟩
    simp [isChar]

/-- The check goes through a byte string as the reading of its symbols does. -/
theorem valid_eq (s : Bytes) : valid s = (symbols s).all isChar := by
  fun_induction symbols s with
  | case1 => rfl
  | case2 b s hb ih => rw [valid.eq_def]; simpa [hb, isChar] using ih
  | case3 b hb => simp [valid, hb, isChar]
  | case4 b hb b₁ s c hc ih => rw [valid.eq_def]; simpa [hb, hc, isChar] using ih
  | case5 b hb b₁ h₁ ih => simp [valid, hb, h₁, isChar]
  | case6 b hb b₁ h₁ b₂ s c hc ih =>
    rw [valid.eq_def]
    simpa [hb, h₁, hc, isChar] using ih
  | case7 b hb b₁ h₁ b₂ h₂ ih => simp [valid, hb, h₁, h₂, isChar]
  | case8 b hb b₁ h₁ b₂ h₂ b₃ s c hc ih =>
    rw [valid.eq_def]
    simpa [hb, h₁, h₂, hc, isChar] using ih
  | case9 b hb b₁ h₁ b₂ h₂ b₃ s h₃ ih => simp [valid, hb, h₁, h₂, h₃, isChar]

/-- The valid byte strings are those that characters are written as. -/
theorem valid_iff_encode {s : Bytes} : valid s = true ↔ ∃ cs, s = encode cs := by
  rw [valid_eq, all_isChar]
  constructor
  · rintro ⟨cs, h⟩
    exact ⟨cs, eq_encode_of_symbols h⟩
  · rintro ⟨cs, rfl⟩
    exact ⟨cs, symbols_encode cs⟩

theorem encode_chars {s : Bytes} (h : valid s = true) : encode (chars s) = s := by
  obtain ⟨cs, rfl⟩ := valid_iff_encode.mp h
  rw [chars_encode]

-- --------------------------------------------------------------------
-- Bytes from 0x80 on

def isWide (b : UInt8) : Bool := 0x80 ≤ b

theorem isWide_iff {b : UInt8} : isWide b = true ↔ 0x80 ≤ b.toNat := by
  simp [isWide, UInt8.le_iff_toNat_le]

theorem isWide_of_mem_encodeChar {c : Char} {b : UInt8} (h : b ∈ encodeChar c) :
    isWide b = decide (0x80 ≤ c.toNat) := by
  rw [Bool.eq_iff_iff, isWide_iff, decide_eq_true_eq]
  rcases encodeChar_cases c with ⟨hc, he⟩ | ⟨b₀, b₁, he, hc⟩ | ⟨b₀, b₁, b₂, he, hc⟩ |
    ⟨b₀, b₁, b₂, b₃, he, hc⟩
  · rw [he, List.mem_singleton] at h
    rw [h, toNat_ofNat (by omega)]
  · obtain ⟨hlow, hhigh, h₀, h₁⟩ := two?_eq_some.mp hc
    simp only [he, List.mem_cons, List.not_mem_nil, or_false] at h
    rcases h with rfl | rfl <;> omega
  · obtain ⟨hlow, hhigh, h₀, h₁, h₂⟩ := three?_eq_some.mp hc
    simp only [he, List.mem_cons, List.not_mem_nil, or_false] at h
    rcases h with rfl | rfl | rfl <;> omega
  · obtain ⟨hlow, h₀, h₁, h₂, h₃⟩ := four?_eq_some.mp hc
    simp only [he, List.mem_cons, List.not_mem_nil, or_false] at h
    rcases h with rfl | rfl | rfl | rfl <;> omega

/-- The wide bytes of a text are those of its characters outside ASCII. -/
theorem filter_isWide_encode (cs : List Char) :
    (encode cs).filter isWide = encode (cs.filter fun c => 0x80 ≤ c.toNat) := by
  induction cs with
  | nil => rfl
  | cons c cs ih =>
    rw [encode, List.flatMap_cons, List.filter_append, ← encode, ih, List.filter_cons]
    split
    · next hc =>
      rw [List.filter_eq_self.mpr fun b hb => (isWide_of_mem_encodeChar hb).trans hc]
      rfl
    · next hc =>
      rw [List.filter_eq_nil_iff.mpr fun b hb => by rwa [isWide_of_mem_encodeChar hb]]
      rfl

end Restyler.Utf8
