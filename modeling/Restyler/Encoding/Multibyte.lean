import Restyler.Encoding.CodePage

/-!
# Multi-byte character sets

The East Asian sets belong to a library: how they decode and encode is given with a set, and not
said here. Decoding never fails, since what is no character is read as U+FFFD. Each set has plain
bytes, which stand for the ASCII characters of the same number: all of ASCII, but for the bytes that
shift between its planes (`~` in HZ-GB-2312, escape in ISO-2022-JP).
-/

namespace Restyler

structure Multibyte where
  decode : Bytes → List Char
  encode? : Bytes → Option Bytes
  plain : UInt8 → Bool
  /-- Plain contents are their own text. -/
  decode_plain : ∀ s, s.all plain = true → Utf8.encode (decode s) = s
  encode?_plain : ∀ s, s.all plain = true → encode? s = some s

namespace CodePage

theorem ascii_of_lt : ∀ n, n < 0x80 →
    ascii.decodeByte n.toUInt8 = Char.ofNat n ∧ encodeChar (Char.ofNat n) = [n.toUInt8] ∧
      ascii.encodeChar? (Char.ofNat n) = some n.toUInt8 := by
  decide +kernel

/-- In ASCII contents every byte is a character. -/
theorem ascii_byte {b : UInt8} (h : b < 0x80) :
    encodeChar (ascii.decodeByte b) = [b] ∧
      ascii.encodeChar? (Char.ofNat b.toNat) = some b := by
  obtain ⟨hdecode, hchar, hencode⟩ := ascii_of_lt b.toNat h
  have hb : b.toNat.toUInt8 = b := UInt8.ofNat_toNat
  rw [hb] at hdecode hchar hencode
  exact ⟨hdecode ▸ hchar, hencode⟩

theorem encode_ascii_decode {s : Bytes} (h : s.all (· < 0x80) = true) :
    Utf8.encode (ascii.decode s) = s := by
  induction s with
  | nil => rfl
  | cons b s ih =>
    rw [List.all_cons, Bool.and_eq_true, decide_eq_true_iff] at h
    have hs : (s.map ascii.decodeByte).flatMap encodeChar = s := ih h.2
    simp [decode, Utf8.encode, (ascii_byte h.1).1, hs]

theorem ascii_encode?_symbols {s : Bytes} (h : s.all (· < 0x80) = true) :
    ascii.encode? (Utf8.symbols s) = some s := by
  induction s with
  | nil => simp [Utf8.symbols, encode?]
  | cons b s ih =>
    rw [List.all_cons, Bool.and_eq_true, decide_eq_true_iff] at h
    rw [Utf8.symbols.eq_def]
    have hs := ih h.2
    unfold encode? at hs ⊢
    simp [h.1, (ascii_byte h.1).2, hs]

end CodePage

namespace Multibyte

/-- A set of which only the ASCII half is known: it reads other bytes as U+FFFD and encodes ASCII
only. For plain contents it does as any other set. -/
def ascii : Multibyte where
  decode := CodePage.ascii.decode
  encode? t := CodePage.ascii.encode? (Utf8.symbols t)
  plain b := b < 0x80
  decode_plain _ := CodePage.encode_ascii_decode
  encode?_plain _ := CodePage.ascii_encode?_symbols

end Multibyte

end Restyler
