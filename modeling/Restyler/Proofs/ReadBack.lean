import Restyler.Proofs.WriteBack

/-!
# What is written is read back

A text that an encoding can write is read again as it was. The Unicode encodings can write every
text: a mark that is written in front is dropped again, and one that belongs to the text comes
behind it and stays. A single-byte set can write the text exactly if it has all of its characters.
-/

namespace Restyler

namespace CodePage

variable {p : CodePage}

/-- U+FFFD marks what is not defined, so it is no character of a page. -/
theorem isSome_encodeChar?_iff {c : Char} :
    (p.encodeChar? c).isSome = true ↔ c ≠ replacement ∧ c.toNat ∈ p.codes := by
  unfold encodeChar?
  split
  · next hc => simp [hc]
  · next hc => simp [hc]

theorem encode?_isSome_iff {cs : List Char} :
    (p.encode? (cs.map .char)).isSome = true ↔ ∀ c ∈ cs, c ≠ replacement ∧ c.toNat ∈ p.codes := by
  constructor
  · intro h
    rw [encode?_map_char] at h
    induction cs with
    | nil => simp
    | cons c cs ih =>
      obtain ⟨data, hdata⟩ := Option.isSome_iff_exists.mp h
      rw [List.mapM_cons, Option.bind_eq_bind, Option.bind_eq_some_iff] at hdata
      obtain ⟨b, hb, hdata⟩ := hdata
      rw [Option.bind_eq_bind, Option.bind_eq_some_iff] at hdata
      obtain ⟨rest, hrest, -⟩ := hdata
      exact List.forall_mem_cons.mpr
        ⟨isSome_encodeChar?_iff.mp (by rw [hb]; rfl), ih (by rw [hrest]; rfl)⟩
  · intro h
    have hall : ∀ c ∈ cs, (p.encodeChar? c).isSome = true :=
      fun c hc => isSome_encodeChar?_iff.mpr (h c hc)
    exact Option.isSome_iff_exists.mpr (exists_encode? hall)

end CodePage

namespace Codec

theorem page?_eq_none {codec : Codec} :
    codec.page? = none ∧ codec.isMultibyte = false ↔
      codec ∈ [.utf8, .utf16, .utf16be, .utf16le] := by
  cases codec <;> simp [page?, isMultibyte]

theorem decode?_of_encode? {codec : Codec} (hnamed : codec.IsNamed) {cs : List Char} {data : Bytes}
    (h : codec.encode? (Utf8.encode cs) = some data) :
    codec.decode? data = some (Utf8.encode cs) := by
  cases hp : codec.page? with
  | none =>
    have hsingle := not_isMultibyte_of_isNamed hnamed
    obtain ⟨data', hdata', hread⟩ := decode?_encode?_of_page?_none hp hsingle cs
    rw [hdata'] at h
    exact Option.some.inj h ▸ hread
  | some p => exact decode?_of_encode?_of_page? hp (suits_of_isNamed hnamed hp) h

end Codec

namespace Encoding

/-- A text that an encoding can write is read again as it was. The Unicode encodings can write every
text, a single-byte set those whose characters it has. -/
theorem read_back {library : Bytes → Multibyte} {name : Bytes} {e : Encoding}
    (hname : ofName name library = .ok e) (hsingle : e.codec.isMultibyte = false) {text : Bytes}
    (htext : Utf8.valid text = true) :
    (∀ data, e.encode text = .ok data → e.decode data = .ok text) ∧
      (e.codec ∈ [.utf8, .utf16, .utf16be, .utf16le] → ∃ data, e.encode text = .ok data) ∧
      ∀ p, e.codec = .page p → ((∃ data, e.encode text = .ok data) ↔
        ∀ c ∈ Utf8.chars text, c ≠ replacement ∧ c.toNat ∈ p.codes) := by
  obtain ⟨cs, rfl⟩ := Utf8.valid_iff_encode.mp htext
  simp only [encode_ok, decode_ok]
  refine ⟨fun data h => Codec.decode?_of_encode? (isNamed_of_ofName hname hsingle) h, fun he => ?_,
    fun p he => ?_⟩
  · obtain ⟨data, hdata, -⟩ :=
      Codec.decode?_encode?_of_page?_none (Codec.page?_eq_none.mpr he).1 hsingle cs
    exact ⟨data, hdata⟩
  · have hp : e.codec.page? = some p := by rw [he]; rfl
    rw [Codec.encode?_of_page? hp, Utf8.symbols_encode, Utf8.chars_encode,
      ← CodePage.encode?_isSome_iff, Option.isSome_iff_exists]

/-- A mark of the text's own, behind the one that is written, and a character beyond the first
plane. -/
theorem read_back_marked :
    let utf16 : Encoding := ⟨bytes "UTF-16", .utf16⟩
    let text := bytes "\uFEFF😀"
    let data : Bytes := [0xFE, 0xFF, 0xFE, 0xFF, 0xD8, 0x3D, 0xDE, 0x00]
    ofName (bytes " UTF-16 ") = .ok utf16 ∧ Utf8.valid text = true ∧
      utf16.encode text = .ok data ∧ utf16.decode data = .ok text := by
  intro utf16 text data
  have hname : ofName (bytes " UTF-16 ") = .ok utf16 :=
    ofName_of_findIdx? (i := 2) (by decide +kernel) (by decide +kernel) (by decide +kernel) rfl
      (by simp) _
  have htext : Utf8.valid text = true := by decide +kernel
  have hencode : utf16.encode text = .ok data := by decide +kernel
  exact ⟨hname, htext, hencode, (read_back hname rfl htext).1 data hencode⟩

end Encoding

end Restyler
