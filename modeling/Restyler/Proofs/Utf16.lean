import Restyler.Encoding.Utf16
import Restyler.Proofs.Utf8

/-!
# Reading and writing UTF-16

`WellFormed order s` says that `s` is made of whole units in which surrogates stand in pairs only.
This is exactly what encoding produces, and what is produced is read back. So a byte string survives
decoding and encoding if and only if it is well formed; under a byte-order mark it must in addition
start with the mark that encoding writes.
-/

namespace Restyler.Utf16

-- --------------------------------------------------------------------
-- Units

theorem unit_lt (order : Order) (a b : UInt8) : unit order a b < 0x10000 := by
  have ha := a.toNat_lt
  have hb := b.toNat_lt
  cases order <;> simp only [unit] <;> omega

theorem unitBytes_unit (order : Order) (a b : UInt8) :
    unitBytes order (unit order a b) = [a, b] := by
  have ha := a.toNat_lt
  have hb := b.toNat_lt
  have hsplit (x y : UInt8) : ((x.toNat * 256 + y.toNat) / 256).toUInt8 = x ∧
      ((x.toNat * 256 + y.toNat) % 256).toUInt8 = y := by
    have hy := y.toNat_lt
    rw [show (x.toNat * 256 + y.toNat) / 256 = x.toNat by omega,
      show (x.toNat * 256 + y.toNat) % 256 = y.toNat by omega]
    exact ⟨UInt8.ofNat_toNat, UInt8.ofNat_toNat⟩
  cases order with
  | big => simp [unitBytes, unit, hsplit a b]
  | little => simp [unitBytes, unit, hsplit b a]

/-- A unit is written as two bytes that are read as this unit. -/
theorem exists_unitBytes (order : Order) {n : Nat} (h : n < 0x10000) :
    ∃ a b, unitBytes order n = [a, b] ∧ unit order a b = n := by
  have hhigh : (n / 256).toUInt8.toNat = n / 256 := Utf8.toNat_ofNat (by omega)
  have hlow : (n % 256).toUInt8.toNat = n % 256 := Utf8.toNat_ofNat (by omega)
  cases order with
  | big =>
    refine ⟨_, _, rfl, ?_⟩
    rw [unit, hhigh, hlow]
    omega
  | little =>
    refine ⟨_, _, rfl, ?_⟩
    rw [unit, hhigh, hlow]
    omega

-- --------------------------------------------------------------------
-- Surrogates

theorem isLeading_iff {n : Nat} : isLeading n = true ↔ 0xD800 ≤ n ∧ n < 0xDC00 := by
  simp [isLeading]

theorem isTrailing_iff {n : Nat} : isTrailing n = true ↔ 0xDC00 ≤ n ∧ n < 0xE000 := by
  simp [isTrailing]

/-- A unit that is neither half of a pair. -/
def isWhole (n : Nat) : Bool := !isLeading n && !isTrailing n

theorem isWhole_iff {n : Nat} : isWhole n = true ↔ n < 0xD800 ∨ 0xE000 ≤ n := by
  simp only [isWhole, Bool.and_eq_true, Bool.not_eq_true', ← Bool.not_eq_true, isLeading_iff,
    isTrailing_iff]
  omega

theorem toNat_pair {x y : Nat} (hx : isLeading x = true) (hy : isTrailing y = true) :
    (pair x y).toNat = 0x10000 + (x - 0xD800) * 0x400 + (y - 0xDC00) := by
  rw [pair, if_pos hx]
  rw [isLeading_iff] at hx
  rw [isTrailing_iff] at hy
  exact Utf8.toNat_charOfNat (.inr (by omega))

-- --------------------------------------------------------------------
-- Well-formed strings

/-- Whole units, and pairs of a leading and a trailing surrogate. -/
inductive WellFormed (order : Order) : Bytes → Prop
  | nil : WellFormed order []
  | whole {a b : UInt8} {s : Bytes} (hunit : isWhole (unit order a b) = true) :
      WellFormed order s → WellFormed order (a :: b :: s)
  | pair {a b c d : UInt8} {s : Bytes} (hleading : isLeading (unit order a b) = true)
      (htrailing : isTrailing (unit order c d) = true) :
      WellFormed order s → WellFormed order (a :: b :: c :: d :: s)

section
variable {order : Order}

theorem decode_whole {a b : UInt8} (h : isWhole (unit order a b) = true) (s : Bytes) :
    decode order (a :: b :: s) = Char.ofNat (unit order a b) :: decode order s := by
  simp only [isWhole, Bool.and_eq_true, Bool.not_eq_true'] at h
  rw [decode.eq_def]
  simp [h.1, h.2]

theorem decode_pair {a b c d : UInt8} (hleading : isLeading (unit order a b) = true)
    (htrailing : isTrailing (unit order c d) = true) (s : Bytes) :
    decode order (a :: b :: c :: d :: s) =
      pair (unit order a b) (unit order c d) :: decode order s := by
  rw [decode.eq_def]
  simp [hleading, htrailing]

theorem encodeChar_whole {n : Nat} (hn : n < 0x10000) (h : isWhole n = true) :
    encodeChar order (Char.ofNat n) = unitBytes order n := by
  have hc : (Char.ofNat n).toNat = n := by
    rw [isWhole_iff] at h
    exact Utf8.toNat_charOfNat (h.imp id fun h => ⟨by omega, by omega⟩)
  rw [encodeChar, hc, if_pos hn]

theorem encodeChar_pair {x y : Nat} (hx : isLeading x = true) (hy : isTrailing y = true) :
    encodeChar order (pair x y) = unitBytes order x ++ unitBytes order y := by
  have hc := toNat_pair hx hy
  rw [isLeading_iff] at hx
  rw [isTrailing_iff] at hy
  have hhigh : 0xD800 + ((pair x y).toNat - 0x10000) / 0x400 = x := by omega
  have hlow : 0xDC00 + ((pair x y).toNat - 0x10000) % 0x400 = y := by omega
  have hlong : ¬ (pair x y).toNat < 0x10000 := by omega
  simp only [encodeChar, if_neg hlong, hhigh, hlow]

/-- A character is written as a whole unit or as a pair, which is read as this character. -/
theorem encodeChar_cases (order : Order) (c : Char) :
    (∃ a b, encodeChar order c = [a, b] ∧ isWhole (unit order a b) = true ∧
      Char.ofNat (unit order a b) = c) ∨
    ∃ a b a' b', encodeChar order c = [a, b, a', b'] ∧ isLeading (unit order a b) = true ∧
      isTrailing (unit order a' b') = true ∧ pair (unit order a b) (unit order a' b') = c := by
  have hc := Utf8.toNat_lt c
  by_cases h : c.toNat < 0x10000
  · left
    obtain ⟨a, b, hbytes, hunit⟩ := exists_unitBytes order h
    refine ⟨a, b, by simp [encodeChar, h, hbytes], ?_, by rw [hunit, Char.ofNat_toNat]⟩
    rw [hunit, isWhole_iff]
    rcases c.valid with hv | ⟨hv, -⟩
    · exact .inl hv
    · exact .inr hv
  · right
    have hx : isLeading (0xD800 + (c.toNat - 0x10000) / 0x400) = true :=
      isLeading_iff.mpr (by omega)
    have hy : isTrailing (0xDC00 + (c.toNat - 0x10000) % 0x400) = true :=
      isTrailing_iff.mpr (by omega)
    obtain ⟨a, b, hbytes, hunit⟩ := exists_unitBytes order
      (show 0xD800 + (c.toNat - 0x10000) / 0x400 < 0x10000 by omega)
    obtain ⟨a', b', hbytes', hunit'⟩ := exists_unitBytes order
      (show 0xDC00 + (c.toNat - 0x10000) % 0x400 < 0x10000 by omega)
    refine ⟨a, b, a', b', by simp [encodeChar, h, hbytes, hbytes'], hunit ▸ hx, hunit' ▸ hy, ?_⟩
    rw [hunit, hunit', ← Char.toNat_inj, toNat_pair hx hy]
    omega

theorem decode_encodeChar (c : Char) (s : Bytes) :
    decode order (encodeChar order c ++ s) = c :: decode order s := by
  rcases encodeChar_cases order c with ⟨a, b, he, hunit, hc⟩ | ⟨a, b, a', b', he, hx, hy, hc⟩
  · rw [he, ← hc]
    exact decode_whole hunit s
  · rw [he, ← hc]
    exact decode_pair hx hy s

/-- What is written is read back. -/
theorem decode_encode (cs : List Char) : decode order (encode order cs) = cs := by
  induction cs with
  | nil => rfl
  | cons c cs ih => rw [encode, List.flatMap_cons, decode_encodeChar, ← encode, ih]

theorem wellFormed_encode (cs : List Char) : WellFormed order (encode order cs) := by
  induction cs with
  | nil => exact .nil
  | cons c cs ih =>
    rw [encode, List.flatMap_cons, ← encode]
    rcases encodeChar_cases order c with ⟨a, b, he, hunit, -⟩ | ⟨a, b, a', b', he, hx, hy, -⟩
    · rw [he]
      exact .whole hunit ih
    · rw [he]
      exact .pair hx hy ih

theorem WellFormed.encode_decode {s : Bytes} (h : WellFormed order s) :
    encode order (decode order s) = s := by
  induction h with
  | nil => rfl
  | @whole a b s hunit _ ih =>
    rw [decode_whole hunit, encode, List.flatMap_cons, ← encode, ih,
      encodeChar_whole (unit_lt _ _ _) hunit, unitBytes_unit]
    rfl
  | @pair a b c d s hx hy _ ih =>
    rw [decode_pair hx hy, encode, List.flatMap_cons, ← encode, ih, encodeChar_pair hx hy,
      unitBytes_unit, unitBytes_unit]
    rfl

/-- Encoding produces nothing else, so nothing else survives. -/
theorem encode_decode_eq_iff (s : Bytes) :
    encode order (decode order s) = s ↔ WellFormed order s :=
  ⟨fun h => h ▸ wellFormed_encode _, fun h => h.encode_decode⟩

end

/-- The mark that was read is not kept: encoding writes the big-endian one in any case. -/
theorem encodeMarked_decodeMarked_eq_iff (s : Bytes) :
    encodeMarked (decodeMarked s) = s ↔ ∃ t, s = 0xFE :: 0xFF :: t ∧ WellFormed .big t := by
  constructor
  · intro h
    refine ⟨encode .big (decodeMarked s), h.symm, wellFormed_encode _⟩
  · rintro ⟨t, rfl, ht⟩
    rw [encodeMarked, decodeMarked, ht.encode_decode]

end Restyler.Utf16
