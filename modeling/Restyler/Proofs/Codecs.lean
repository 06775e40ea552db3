import Restyler.Encoding.Basic
import Restyler.Proofs.Utf16

/-!
# Which contents survive decoding and encoding

`Codec.Restores` names, for each codec, the contents that come back as they were. UTF-8 contents
always do. Contents in a single-byte set do if the set defines all their bytes: a page gives no two
bytes the same code point. UTF-16 contents must be well formed, and begin with the big-endian mark
where encoding writes one.
-/

namespace Restyler

-- --------------------------------------------------------------------
-- Code pages

namespace CodePage

def defines (p : CodePage) (b : UInt8) : Bool := p.codes.getD b.toNat 0xFFFD ≠ 0xFFFD

/-- The code points are those of characters, and no two bytes share a defined one. -/
structure Sound (p : CodePage) : Prop where
  valid : ∀ n ∈ p.codes, n.isValidChar
  distinct : p.codes.Pairwise fun m n => m ≠ 0xFFFD → m ≠ n

/-- Whether the codes are sound and have none in common with those met before. The set of these is
given by its bits. -/
def soundFrom (met : Nat) : List Nat → Bool
  | [] => true
  | n :: ns =>
    if n = 0xFFFD then soundFrom met ns
    else decide n.isValidChar && !met.testBit n && soundFrom (met ||| 1 <<< n) ns

theorem testBit_insert (met n k : Nat) :
    (met ||| 1 <<< n).testBit k = (met.testBit k || decide (n = k)) := by
  rw [Nat.testBit_or, Nat.one_shiftLeft, Nat.testBit_two_pow]

theorem valid_of_soundFrom {met : Nat} {ns : List Nat} (h : soundFrom met ns = true) :
    ∀ n ∈ ns, n.isValidChar := by
  fun_induction soundFrom met ns with
  | case1 => simp
  | case2 met ns ih => exact List.forall_mem_cons.mpr ⟨by decide, ih h⟩
  | case3 met n ns hn ih =>
    simp only [Bool.and_eq_true, decide_eq_true_eq] at h
    exact List.forall_mem_cons.mpr ⟨h.1.1, ih h.2⟩

theorem notMet_of_soundFrom {met : Nat} {ns : List Nat} (h : soundFrom met ns = true) :
    ∀ n ∈ ns, n ≠ 0xFFFD → met.testBit n = false := by
  fun_induction soundFrom met ns with
  | case1 => simp
  | case2 met ns ih => exact List.forall_mem_cons.mpr ⟨fun hn => absurd rfl hn, ih h⟩
  | case3 met n ns hn ih =>
    simp only [Bool.and_eq_true, Bool.not_eq_true'] at h
    refine List.forall_mem_cons.mpr ⟨fun _ => h.1.2, fun m hm hne => ?_⟩
    have hm := ih h.2 m hm hne
    rw [testBit_insert, Bool.or_eq_false_iff] at hm
    exact hm.1

theorem pairwise_of_soundFrom {met : Nat} {ns : List Nat} (h : soundFrom met ns = true) :
    ns.Pairwise fun m n => m ≠ 0xFFFD → m ≠ n := by
  fun_induction soundFrom met ns with
  | case1 => exact .nil
  | case2 met ns ih => exact (ih h).cons fun _ _ hn => absurd rfl hn
  | case3 met n ns hn ih =>
    simp only [Bool.and_eq_true, Bool.not_eq_true'] at h
    refine (ih h.2).cons fun m hm _ heq => ?_
    -- The code itself is among those that are met by then.
    subst heq
    have hm := notMet_of_soundFrom h.2 n hm hn
    rw [testBit_insert, Bool.or_eq_false_iff] at hm
    simp at hm

theorem sound_of_soundFrom {p : CodePage} (h : soundFrom 0 p.codes = true) : p.Sound :=
  ⟨valid_of_soundFrom h, pairwise_of_soundFrom h⟩

variable {p : CodePage}

theorem decodeByte_of_not_defines {b : UInt8} (h : p.defines b = false) :
    p.decodeByte b = replacement := by
  rw [defines, decide_eq_false_iff_not, Decidable.not_not] at h
  rw [decodeByte, h, replacement]

/-- The first place of a code point is the only one, so a defined byte is found again. -/
theorem Sound.encodeChar?_decodeByte (hp : p.Sound) (b : UInt8) :
    p.encodeChar? (p.decodeByte b) = if p.defines b then some b else none := by
  cases hb : p.defines b with
  | false => simp [decodeByte_of_not_defines hb, encodeChar?]
  | true =>
    rw [defines, decide_eq_true_eq, List.getD_eq_getElem?_getD] at hb
    obtain ⟨n, hn⟩ : ∃ n, p.codes[b.toNat]? = some n := by
      cases hn : p.codes[b.toNat]? with
      | none => simp [hn] at hb
      | some n => exact ⟨n, rfl⟩
    obtain ⟨hlt, hget⟩ := List.getElem?_eq_some_iff.mp hn
    rw [hn, Option.getD_some] at hb
    have hc : (Char.ofNat n).toNat = n :=
      Utf8.toNat_charOfNat (hp.valid n (List.mem_of_getElem? hn))
    have hne : Char.ofNat n ≠ replacement := by
      intro h
      rw [h] at hc
      exact hb hc.symm
    have hindex : p.codes.idxOf? n = some b.toNat := by
      refine List.idxOf?_eq_some_iff.mpr ⟨hlt, hget, fun j hj heq => ?_⟩
      exact List.pairwise_iff_getElem.mp hp.distinct j b.toNat _ hlt hj (heq ▸ hb)
        (heq.trans hget.symm)
    rw [decodeByte, List.getD_eq_getElem?_getD, hn, Option.getD_some, encodeChar?, if_neg hne, hc,
      hindex, if_pos rfl]
    exact congrArg some UInt8.ofNat_toNat

theorem Sound.encode?_decode (hp : p.Sound) (s : Bytes) :
    p.encode? ((p.decode s).map .char) = if s.all p.defines then some s else none := by
  rw [encode?]
  induction s with
  | nil => rfl
  | cons b s ih =>
    rw [decode] at ih
    simp only [decode, List.map_cons, List.mapM_cons, ih, hp.encodeChar?_decodeByte, List.all_cons]
    by_cases hb : p.defines b = true
    · by_cases hs : s.all p.defines = true <;> simp [hb, hs]
    · simp [hb]

/-- What can be encoded has neither stray bytes nor the character that stands for them. -/
theorem exists_chars_of_encode? {ss : List Symbol} {t : Bytes} (h : p.encode? ss = some t) :
    ∃ cs : List Char, ss = cs.map .char ∧ replacement ∉ cs := by
  rw [encode?] at h
  induction ss generalizing t with
  | nil => exact ⟨[], rfl, List.not_mem_nil⟩
  | cons x ss ih =>
    rw [List.mapM_cons, Option.bind_eq_bind, Option.bind_eq_some_iff] at h
    obtain ⟨b, hb, h⟩ := h
    rw [Option.bind_eq_bind, Option.bind_eq_some_iff] at h
    obtain ⟨t', ht, -⟩ := h
    obtain ⟨cs, rfl, hcs⟩ := ih ht
    cases x with
    | stray b => cases hb
    | char c =>
      refine ⟨c :: cs, rfl, List.not_mem_cons_of_ne_of_not_mem ?_ hcs⟩
      rintro rfl
      simp [encodeChar?] at hb

end CodePage

-- --------------------------------------------------------------------
-- Codecs

namespace Codec

/-- The single-byte set that a codec works with. -/
def page? : Codec → Option CodePage
  | .page p => some p
  | .utf8 | .utf16 | .utf16be | .utf16le | .multibyte _ => none

def isMultibyte : Codec → Bool
  | .multibyte _ => true
  | .utf8 | .utf16 | .utf16be | .utf16le | .page _ => false

/-- The codecs that some name stands for in every library. -/
def IsNamed (codec : Codec) : Prop := ∃ names, (codec, names) ∈ named

theorem soundFrom_named :
    (named.all fun entry => entry.1.page?.all fun p => CodePage.soundFrom 0 p.codes) = true := by
  decide +kernel

theorem sound_of_isNamed {codec : Codec} {p : CodePage} (h : codec.IsNamed)
    (hp : codec.page? = some p) : p.Sound := by
  obtain ⟨names, hmem⟩ := h
  have hcodec := List.all_eq_true.mp soundFrom_named _ hmem
  simp only [hp, Option.all_some] at hcodec
  exact CodePage.sound_of_soundFrom hcodec

/-- The contents that decoding and encoding leave as they are. Of a multi-byte set this is known of
the plain ones. -/
def Restores : Codec → Bytes → Prop
  | .utf8, s => Utf8.valid s = true
  | .utf16, s => ∃ t, s = 0xFE :: 0xFF :: t ∧ Utf16.WellFormed .big t
  | .utf16be, s => Utf16.WellFormed .big s
  | .utf16le, s => Utf16.WellFormed .little s
  | .page p, s => s.all p.defines = true
  | .multibyte set, s => s.all set.plain = true

/-- Contents that are plain, if the codec is a multi-byte set. -/
def Plain (codec : Codec) (s : Bytes) : Prop :=
  ∀ set, codec = .multibyte set → s.all set.plain = true

theorem page?_eq_some {codec : Codec} {p : CodePage} :
    codec.page? = some p ↔ codec = .page p := by
  cases codec <;> simp [page?]

theorem not_isMultibyte_of_page? {codec : Codec} {p : CodePage} (hp : codec.page? = some p) :
    codec.isMultibyte = false := by
  rw [page?_eq_some.mp hp]
  rfl

theorem plain_of_not_isMultibyte {codec : Codec} (h : codec.isMultibyte = false) (s : Bytes) :
    codec.Plain s := by
  rintro set rfl
  exact absurd h nofun

theorem restores_of_page? {codec : Codec} {p : CodePage} (hp : codec.page? = some p) (s : Bytes) :
    codec.Restores s ↔ s.all p.defines = true := by
  rw [page?_eq_some.mp hp, Restores]

theorem decode?_of_page? {codec : Codec} {p : CodePage} (hp : codec.page? = some p) (s : Bytes) :
    codec.decode? s = some (Utf8.encode (p.decode s)) := by
  rw [page?_eq_some.mp hp, decode?]

theorem encode?_of_page? {codec : Codec} {p : CodePage} (hp : codec.page? = some p) (t : Bytes) :
    codec.encode? t = p.encode? (Utf8.symbols t) := by
  rw [page?_eq_some.mp hp, encode?]

theorem encode?_decode?_of_page? {codec : Codec} {p : CodePage} (hp : codec.page? = some p)
    (hsound : p.Sound) {s t : Bytes} (h : codec.decode? s = some t) :
    codec.encode? t = if s.all p.defines then some s else none := by
  rw [decode?_of_page? hp] at h
  rw [encode?_of_page? hp, ← Option.some.inj h, Utf8.symbols_encode, hsound.encode?_decode]

theorem encode?_decode?_of_plain {set : Multibyte} {s t : Bytes} (hs : s.all set.plain = true)
    (h : decode? (.multibyte set) s = some t) : encode? (.multibyte set) t = some s := by
  rw [decode?, set.decode_plain s hs] at h
  rw [encode?, ← Option.some.inj h, set.encode?_plain s hs]

/-- A name in no library's gift stands for the same codec everywhere. -/
theorem isNamed_of_ofName? {library : Bytes → Multibyte} {name : Bytes} {codec : Codec}
    (h : ofName? library name = some codec) (hcodec : codec.isMultibyte = false) :
    codec.IsNamed := by
  unfold ofName? at h
  split at h
  · next codec' names hfind =>
    cases h
    exact ⟨names, List.mem_of_find?_eq_some hfind⟩
  · split at h
    · cases h
      exact absurd hcodec nofun
    · cases h

/-- A registered name stands for the codec that it is registered for first. -/
theorem ofName?_of_findIdx? {name : Bytes} {i : Nat} {codec : Codec} {names : List String}
    (hi : named.findIdx? (fun entry => isAmong name entry.2) = some i)
    (hget : named[i]? = some (codec, names)) (library : Bytes → Multibyte) :
    ofName? library name = some codec := by
  have hfind : named.find? (fun entry => isAmong name entry.2) = some (codec, names) := by
    rw [List.find?_eq_bind_findIdx?_getElem?, hi]
    exact hget
  unfold ofName?
  rw [hfind]

theorem ofName?_eq_none {library : Bytes → Multibyte} {name : Bytes}
    (h : ofName? library name = none) (library' : Bytes → Multibyte) :
    ofName? library' name = none := by
  unfold ofName? at h ⊢
  split at h
  · cases h
  · split at h
    · cases h
    · next hname => exact if_neg hname

theorem encode?_eq_some_iff {codec : Codec} (hnamed : codec.isMultibyte = false → codec.IsNamed)
    {s t : Bytes} (h : codec.decode? s = some t) (hplain : codec.Plain s) :
    codec.encode? t = some s ↔ codec.Restores s := by
  cases hp : codec.page? with
  | some p =>
    have hsound := sound_of_isNamed (hnamed (not_isMultibyte_of_page? hp)) hp
    rw [encode?_decode?_of_page? hp hsound h, restores_of_page? hp]
    simp
  | none =>
    cases codec with
    | utf8 =>
      obtain ⟨hvalid, heq⟩ := Option.ite_none_right_eq_some.mp h
      rw [← Option.some.inj heq]
      exact iff_of_true rfl hvalid
    | utf16 =>
      rw [← Option.some.inj h, encode?, Utf8.chars_encode, Option.some_inj]
      exact Utf16.encodeMarked_decodeMarked_eq_iff s
    | utf16be =>
      rw [← Option.some.inj h, encode?, Utf8.chars_encode, Option.some_inj]
      exact Utf16.encode_decode_eq_iff s
    | utf16le =>
      rw [← Option.some.inj h, encode?, Utf8.chars_encode, Option.some_inj]
      exact Utf16.encode_decode_eq_iff s
    | page q => exact absurd hp nofun
    | multibyte set =>
      have hs := hplain set rfl
      exact iff_of_true (encode?_decode?_of_plain hs h) hs

end Codec

-- --------------------------------------------------------------------
-- Encodings

namespace Encoding

theorem isNamed_of_ofName {library : Bytes → Multibyte} {name : Bytes} {e : Encoding}
    (h : ofName name library = .ok e) (he : e.codec.isMultibyte = false) : e.codec.IsNamed := by
  have hutf8 : Codec.utf8.IsNamed := ⟨["csutf8", "utf-8"], by simp [Codec.named]⟩
  unfold ofName at h
  simp only at h
  split at h
  · cases h
    exact hutf8
  split at h
  · cases h
    exact hutf8
  · next codec _ hcodec =>
    cases h
    exact Codec.isNamed_of_ofName? hcodec he
  · split at h <;> exact absurd h nofun

theorem ofName_of_findIdx? {given name : Bytes} {i : Nat} {codec : Codec} {names : List String}
    (hname : Text.trim given = name)
    (hutf8 : (name = [] || Text.sameFold name (bytes "utf-8") ||
      Text.sameFold name (bytes "utf8")) = false)
    (hi : Codec.named.findIdx? (fun entry => Codec.isAmong (Text.lower name) entry.2) = some i)
    (hget : Codec.named[i]? = some (codec, names)) (hcodec : codec ≠ .utf8)
    (library : Bytes → Multibyte) : ofName given library = .ok ⟨name, codec⟩ := by
  unfold ofName
  simp only [hname, hutf8, Codec.ofName?_of_findIdx? hi hget library]
  cases codec with
  | utf8 => exact absurd rfl hcodec
  | utf16 | utf16be | utf16le | page | multibyte => rfl

/-- Which names resolve does not depend on the library. -/
theorem exists_ofName {library : Bytes → Multibyte} {name : Bytes} {e : Encoding}
    (h : ofName name library = .ok e) (library' : Bytes → Multibyte) :
    ∃ e', ofName name library' = .ok e' := by
  unfold ofName at h ⊢
  simp only at h ⊢
  split at h
  · next hutf8 => exact ⟨utf8, if_pos hutf8⟩
  next hutf8 =>
  rw [if_neg hutf8]
  cases hcodec : Codec.ofName? library' (Text.lower (Text.trim name)) with
  | some codec => cases codec <;> exact ⟨_, rfl⟩
  | none =>
    rw [Codec.ofName?_eq_none hcodec library] at h
    simp only at h
    split at h <;> cases h

theorem decode_ok {e : Encoding} {s t : Bytes} :
    e.decode s = .ok t ↔ e.codec.decode? s = some t := by
  unfold decode
  cases e.codec.decode? s <;> simp

theorem encode_ok {e : Encoding} {s t : Bytes} :
    e.encode t = .ok s ↔ e.codec.encode? t = some s := by
  unfold encode
  cases e.codec.encode? t <;> simp

end Encoding

end Restyler
