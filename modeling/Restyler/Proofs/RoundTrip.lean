import Restyler.Proofs.Codecs

/-!
# Which contents are read without loss

The contents that decoding and then encoding gives back, described by their bytes and without a
codec: UTF-8 by the ranges that the bytes of a character have, UTF-16 by its units, none of which
may be half of a pair, and a single-byte set by the bytes that it defines. The main statement is
that these are all.
-/

namespace Restyler

-- --------------------------------------------------------------------
-- UTF-8 by ranges of bytes

namespace Utf8

/-- The bytes of one character: no form is longer than it has to be, and surrogates and values above
U+10FFFF have none. -/
inductive Sequence : Bytes → Prop
  | one {a : UInt8} (ha : a ≤ 0x7F) : Sequence [a]
  | two {a b : UInt8} (ha : 0xC2 ≤ a ∧ a ≤ 0xDF) (hb : isContinuation b = true) : Sequence [a, b]
  | three {a b c : UInt8} (ha : 0xE0 ≤ a ∧ a ≤ 0xEF) (hb : isContinuation b = true)
      (hc : isContinuation c = true) (hshort : a = 0xE0 → 0xA0 ≤ b)
      (hsurrogate : a = 0xED → b ≤ 0x9F) : Sequence [a, b, c]
  | four {a b c d : UInt8} (ha : 0xF0 ≤ a ∧ a ≤ 0xF4) (hb : isContinuation b = true)
      (hc : isContinuation c = true) (hd : isContinuation d = true)
      (hshort : a = 0xF0 → 0x90 ≤ b) (hlast : a = 0xF4 → b ≤ 0x8F) : Sequence [a, b, c, d]

inductive WellFormed : Bytes → Prop
  | nil : WellFormed []
  | append {u s : Bytes} : Sequence u → WellFormed s → WellFormed (u ++ s)

section
variable {a b c d : UInt8}

theorem exists_two? :
    (∃ x, two? a b = some x) ↔ (0xC2 ≤ a ∧ a ≤ 0xDF) ∧ isContinuation b = true := by
  simp only [two?_eq_some, isContinuation_iff, UInt8.le_iff_toNat_le, UInt8.reduceToNat]
  constructor
  · rintro ⟨x, hx⟩
    omega
  · intro h
    refine ⟨Char.ofNat ((a.toNat - 0xC0) * 64 + (b.toNat - 0x80)), ?_⟩
    rw [toNat_charOfNat (.inl (by omega))]
    omega

theorem exists_three? :
    (∃ x, three? a b c = some x) ↔ (0xE0 ≤ a ∧ a ≤ 0xEF) ∧ isContinuation b = true ∧
      isContinuation c = true ∧ (a = 0xE0 → 0xA0 ≤ b) ∧ (a = 0xED → b ≤ 0x9F) := by
  simp only [three?_eq_some, isContinuation_iff, UInt8.le_iff_toNat_le, ← UInt8.toNat_inj,
    UInt8.reduceToNat]
  constructor
  · rintro ⟨x, hx⟩
    have hvalid : x.toNat < 0xD800 ∨ 0xDFFF < x.toNat ∧ x.toNat < 0x110000 := x.valid
    omega
  · intro h
    refine ⟨Char.ofNat (((a.toNat - 0xE0) * 64 + (b.toNat - 0x80)) * 64 + (c.toNat - 0x80)), ?_⟩
    rw [toNat_charOfNat (by unfold Nat.isValidChar; omega)]
    omega

theorem exists_four? :
    (∃ x, four? a b c d = some x) ↔ (0xF0 ≤ a ∧ a ≤ 0xF4) ∧ isContinuation b = true ∧
      isContinuation c = true ∧ isContinuation d = true ∧ (a = 0xF0 → 0x90 ≤ b) ∧
      (a = 0xF4 → b ≤ 0x8F) := by
  simp only [four?_eq_some, isContinuation_iff, UInt8.le_iff_toNat_le, ← UInt8.toNat_inj,
    UInt8.reduceToNat]
  constructor
  · rintro ⟨x, hx⟩
    have hlt := toNat_lt x
    omega
  · intro h
    refine ⟨Char.ofNat ((((a.toNat - 0xF0) * 64 + (b.toNat - 0x80)) * 64 + (c.toNat - 0x80)) * 64 +
      (d.toNat - 0x80)), ?_⟩
    rw [toNat_charOfNat (.inr (by omega))]
    omega

end

theorem sequence_iff {u : Bytes} : Sequence u ↔ ∃ x, u = encodeChar x := by
  constructor
  · intro h
    cases h with
    | @one a ha =>
      have hlow : a.toNat < 0x80 := Nat.lt_succ_of_le (UInt8.le_iff_toNat_le.mp ha)
      have hx : (Char.ofNat a.toNat).toNat = a.toNat := toNat_charOfNat (.inl (by omega))
      refine ⟨Char.ofNat a.toNat, ?_⟩
      rw [encodeChar_eq, hx, if_pos hlow, UInt8.ofNat_toNat]
    | two ha hb =>
      obtain ⟨x, hx⟩ := exists_two?.mpr ⟨ha, hb⟩
      exact ⟨x, (encodeChar_of_two? hx).symm⟩
    | three ha hb hc hshort hsurrogate =>
      obtain ⟨x, hx⟩ := exists_three?.mpr ⟨ha, hb, hc, hshort, hsurrogate⟩
      exact ⟨x, (encodeChar_of_three? hx).symm⟩
    | four ha hb hc hd hshort hlast =>
      obtain ⟨x, hx⟩ := exists_four?.mpr ⟨ha, hb, hc, hd, hshort, hlast⟩
      exact ⟨x, (encodeChar_of_four? hx).symm⟩
  · rintro ⟨x, rfl⟩
    rcases encodeChar_cases x with ⟨hlow, he⟩ | ⟨a, b, he, hx⟩ | ⟨a, b, c, he, hx⟩ |
      ⟨a, b, c, d, he, hx⟩
    · rw [he]
      refine .one (UInt8.le_iff_toNat_le.mpr ?_)
      rw [toNat_ofNat (by omega)]
      exact Nat.le_of_lt_succ hlow
    · obtain ⟨ha, hb⟩ := exists_two?.mp ⟨x, hx⟩
      exact he ▸ .two ha hb
    · obtain ⟨ha, hb, hc, hshort, hsurrogate⟩ := exists_three?.mp ⟨x, hx⟩
      exact he ▸ .three ha hb hc hshort hsurrogate
    · obtain ⟨ha, hb, hc, hd, hshort, hlast⟩ := exists_four?.mp ⟨x, hx⟩
      exact he ▸ .four ha hb hc hd hshort hlast

/-- The check accepts the well-formed strings and no other. -/
theorem valid_iff_wellFormed {s : Bytes} : valid s = true ↔ WellFormed s := by
  rw [valid_iff_encode]
  constructor
  · rintro ⟨cs, rfl⟩
    induction cs with
    | nil => exact .nil
    | cons c cs ih => exact .append (sequence_iff.mpr ⟨c, rfl⟩) ih
  · intro h
    induction h with
    | nil => exact ⟨[], rfl⟩
    | append hu _ ih =>
      obtain ⟨c, rfl⟩ := sequence_iff.mp hu
      obtain ⟨cs, rfl⟩ := ih
      exact ⟨c :: cs, rfl⟩

end Utf8

-- --------------------------------------------------------------------
-- UTF-16 by its units

namespace Utf16

/-- The units of a byte string; an odd byte at the end belongs to none. -/
def units (order : Order) : Bytes → List Nat
  | a :: b :: s => unit order a b :: units order s
  | _ => []

/-- Somewhere a leading surrogate has no trailing one after it, or a trailing one no leading one
before it. -/
def HasLone (us : List Nat) : Prop :=
  ∃ before x after, us = before ++ x :: after ∧
    (isLeading x = true ∧ after.head?.any isTrailing = false ∨
      isTrailing x = true ∧ before.getLast?.any isLeading = false)

theorem isLeading_of_isTrailing {n : Nat} (h : isTrailing n = true) : isLeading n = false := by
  rw [isTrailing_iff] at h
  rw [← Bool.not_eq_true, isLeading_iff]
  omega

theorem not_hasLone_nil : ¬ HasLone [] := by
  rintro ⟨before, x, after, h, -⟩
  exact absurd h (by simp)

theorem any_getLast?_append {w before : List Nat} (hw : w.getLast?.any isLeading = false) :
    (w ++ before).getLast?.any isLeading = before.getLast?.any isLeading := by
  rw [List.getLast?_append]
  cases before.getLast? with
  | none => simpa using hw
  | some x => rfl

/-- Units that do not end in a leading surrogate complete no pair. -/
theorem HasLone.append {w us : List Nat} (hw : w.getLast?.any isLeading = false)
    (h : HasLone us) : HasLone (w ++ us) := by
  obtain ⟨before, x, after, rfl, hx⟩ := h
  refine ⟨w ++ before, x, after, by simp, ?_⟩
  rwa [any_getLast?_append hw]

theorem HasLone.of_append {w before after : List Nat} {x : Nat}
    (hw : w.getLast?.any isLeading = false)
    (hx : isLeading x = true ∧ after.head?.any isTrailing = false ∨
      isTrailing x = true ∧ (w ++ before).getLast?.any isLeading = false) :
    HasLone (before ++ x :: after) := by
  rw [any_getLast?_append hw] at hx
  exact ⟨before, x, after, rfl, hx⟩

theorem hasLone_whole {x : Nat} {us : List Nat} (hx : isWhole x = true) :
    HasLone (x :: us) ↔ HasLone us := by
  simp only [isWhole, Bool.and_eq_true, Bool.not_eq_true'] at hx
  have hw : [x].getLast?.any isLeading = false := by simpa using hx.1
  refine ⟨?_, .append hw⟩
  rintro ⟨before, y, after, heq, hy⟩
  cases before with
  | nil =>
    obtain ⟨rfl, -⟩ := List.cons.inj heq
    simp [hx] at hy
  | cons z before =>
    obtain ⟨rfl, rfl⟩ := List.cons.inj heq
    exact .of_append hw hy

theorem hasLone_pair {x y : Nat} {us : List Nat} (hx : isLeading x = true)
    (hy : isTrailing y = true) : HasLone (x :: y :: us) ↔ HasLone us := by
  have hy' := isLeading_of_isTrailing hy
  have hw : [x, y].getLast?.any isLeading = false := by simpa using hy'
  refine ⟨?_, .append hw⟩
  rintro ⟨before, z, after, heq, hz⟩
  cases before with
  | nil =>
    obtain ⟨rfl, rfl⟩ := List.cons.inj heq
    have hx' : isTrailing x = false := by
      refine Bool.eq_false_iff.mpr fun h => ?_
      rw [isLeading_of_isTrailing h] at hx
      exact absurd hx nofun
    simp [hx', hy] at hz
  | cons _ before =>
    obtain ⟨rfl, htail⟩ := List.cons.inj heq
    cases before with
    | nil =>
      obtain ⟨rfl, rfl⟩ := List.cons.inj htail
      simp [hx, hy'] at hz
    | cons _ before =>
      obtain ⟨rfl, rfl⟩ := List.cons.inj htail
      exact .of_append hw hz

/-- A surrogate at the start that is not lone is the first half of a pair. -/
theorem isLeading_of_not_hasLone {x : Nat} {us : List Nat}
    (hx : (isLeading x || isTrailing x) = true) (h : ¬ HasLone (x :: us)) :
    isLeading x = true ∧ us.head?.any isTrailing = true := by
  have hfirst (hlone : isLeading x = true ∧ us.head?.any isTrailing = false ∨
      isTrailing x = true) : False :=
    h ⟨[], x, us, rfl, hlone.imp_right fun hx => ⟨hx, rfl⟩⟩
  rcases Bool.or_eq_true_iff.mp hx with hx | hx
  · exact ⟨hx, Bool.of_not_eq_false fun hnext => hfirst (.inl ⟨hx, hnext⟩)⟩
  · exact absurd (.inr hx) hfirst

theorem wellFormed_iff {order : Order} {s : Bytes} :
    WellFormed order s ↔ s.length % 2 = 0 ∧ ¬ HasLone (units order s) := by
  constructor
  · intro h
    induction h with
    | nil => exact ⟨rfl, not_hasLone_nil⟩
    | whole hunit _ ih =>
      rw [units, hasLone_whole hunit, List.length_cons, List.length_cons]
      exact ⟨by omega, ih.2⟩
    | pair hx hy _ ih =>
      rw [units, units, hasLone_pair hx hy]
      simp only [List.length_cons]
      exact ⟨by omega, ih.2⟩
  · rintro ⟨hlength, hlone⟩
    -- The cases are those in which the decoder stops, writes U+FFFD or goes on.
    fun_induction decode order s with
    | case1 => exact .nil
    | case2 a => exact absurd hlength (by simp)
    | case3 a b x hx c d s y hy ih =>
      obtain ⟨hx, -⟩ := isLeading_of_not_hasLone hx hlone
      rw [units, units, hasLone_pair hx hy] at hlone
      refine .pair hx hy (ih ?_ hlone)
      simp only [List.length_cons] at hlength
      omega
    | case4 a b x hx c d s y hy ih =>
      obtain ⟨-, hnext⟩ := isLeading_of_not_hasLone hx hlone
      exact absurd hnext hy
    | case5 a b x hx c ih =>
      obtain ⟨-, hnext⟩ := isLeading_of_not_hasLone hx hlone
      exact absurd hnext nofun
    | case6 a b x hx =>
      obtain ⟨-, hnext⟩ := isLeading_of_not_hasLone hx hlone
      exact absurd hnext nofun
    | case7 a b s x hx ih =>
      have hwhole : isWhole x = true := by simpa [isWhole] using hx
      rw [units, hasLone_whole hwhole] at hlone
      refine .whole hwhole (ih ?_ hlone)
      simp only [List.length_cons] at hlength
      omega

end Utf16

-- --------------------------------------------------------------------
-- Encodings

namespace Encoding

theorem decode_error {e : Encoding} {data : Bytes} :
    (∃ f, e.decode data = .error f) ↔ e.codec.decode? data = none := by
  unfold decode
  cases e.codec.decode? data <;> simp

theorem decode_then_encode {e : Encoding} {data t : Bytes} (h : e.codec.decode? data = some t) :
    (e.decode data >>= e.encode) = e.encode t := by
  rw [decode_ok.mpr h]
  rfl

/-- Decoding and then encoding gives the contents back exactly where nothing about them was lost. -/
theorem roundTrip_iff (e : Encoding) (data : Bytes) :
    (e.codec = .utf8 →
      ((∃ f, e.decode data = .error f) ↔ ¬ Utf8.WellFormed data) ∧
        (Utf8.WellFormed data → (e.decode data >>= e.encode) = .ok data)) ∧
    (∀ p, e.codec = .page p → e.codec.IsNamed →
      (e.decode data >>= e.encode) =
        if data.all p.defines then .ok data
        else .error (.within (bytes "encode " ++ e.name) .unencodable)) ∧
    (e.codec = .utf16be → ((e.decode data >>= e.encode) = .ok data ↔
      data.length % 2 = 0 ∧ ¬ Utf16.HasLone (Utf16.units .big data))) ∧
    (e.codec = .utf16le → ((e.decode data >>= e.encode) = .ok data ↔
      data.length % 2 = 0 ∧ ¬ Utf16.HasLone (Utf16.units .little data))) ∧
    (e.codec = .utf16 → ((e.decode data >>= e.encode) = .ok data ↔
      ∃ rest, data = 0xFE :: 0xFF :: rest ∧
        rest.length % 2 = 0 ∧ ¬ Utf16.HasLone (Utf16.units .big rest))) := by
  refine ⟨fun he => ⟨?_, fun hdata => ?_⟩, fun p he hnamed => ?_, fun he => ?_, fun he => ?_,
    fun he => ?_⟩
  · rw [decode_error, he, ← Utf8.valid_iff_wellFormed, Codec.decode?]
    simp
  · have hdecode : e.codec.decode? data = some data := by
      rw [he, Codec.decode?, if_pos (Utf8.valid_iff_wellFormed.mpr hdata)]
    rw [decode_then_encode hdecode, encode_ok, he]
    rfl
  · have hp : e.codec.page? = some p := by rw [he]; rfl
    have hdecode := Codec.decode?_of_page? hp data
    have hencode := Codec.encode?_decode?_of_page? hp (Codec.sound_of_isNamed hnamed hp) hdecode
    rw [decode_then_encode hdecode, encode, hencode]
    cases data.all p.defines <;> rfl
  · rw [decode_then_encode (by rw [he]; rfl), encode_ok, he, Codec.encode?, Utf8.chars_encode,
      Option.some_inj, Utf16.encode_decode_eq_iff, Utf16.wellFormed_iff]
  · rw [decode_then_encode (by rw [he]; rfl), encode_ok, he, Codec.encode?, Utf8.chars_encode,
      Option.some_inj, Utf16.encode_decode_eq_iff, Utf16.wellFormed_iff]
  · rw [decode_then_encode (by rw [he]; rfl), encode_ok, he, Codec.encode?, Utf8.chars_encode,
      Option.some_inj, Utf16.encodeMarked_decodeMarked_eq_iff]
    simp only [Utf16.wellFormed_iff]

end Encoding

end Restyler
