import Restyler.Proofs.Acceptance

/-!
# Blank encodings

An encoding that is empty or only white space is refused if it has its exact name. With a capital in
the name it is taken like any other value, and a blank name stands for UTF-8.
-/

namespace Restyler

namespace Settings

variable {d : Disk} {path c e : Bytes} {doc : Toml.Document} {k : Toml.Key} {s : Settings}

theorem ofName_blank (h : Text.trim e = []) : Encoding.ofName e = .ok .utf8 := by
  simp [Encoding.ofName, h]

/-- The check for a blank encoding is about the exact name. -/
theorem acceptable_iff_of_blank (honce : SpelledOnce doc.entries)
    (hmem : (k, .leaf (.string e)) ∈ doc.entries) (hfield : Field.ofKey? k = some .encoding)
    (hblank : Text.trim e = []) : Acceptable doc ↔ k ≠ encodingKey ∧ Fitting doc := by
  constructor
  · intro h
    refine ⟨?_, h.toFitting⟩
    rintro rfl
    exact h.filled e hmem hblank
  · rintro ⟨hne, hfitting⟩
    refine ⟨hfitting, fun e' hmem' => absurd ?_ hne⟩
    exact honce k _ _ _ hmem hmem' (by simp [hfield]) (hfield.trans ofKey?_encodingKey.symm)

/-- A document with a blank encoding is refused if the encoding has its exact name or there is
something else to refuse. Otherwise the blank name comes out and stands for UTF-8. -/
theorem blank_refused_iff (hc : d.read path = .ok c) (hdoc : Toml.Document.read c = .ok doc)
    (honce : SpelledOnce doc.entries) (hmem : (k, .leaf (.string e)) ∈ doc.entries)
    (hfield : Field.ofKey? k = some .encoding) (hblank : Text.trim e = []) :
    ((∃ f, load d path = .error f) ↔
      k = encodingKey ∨ ¬ (Fitting doc ∧ ∃ s, Overlaid doc.entries s ∧ s.Valid)) ∧
    ∀ s, load d path = .ok s → s.encoding = e ∧ Encoding.ofName s.encoding = .ok .utf8 := by
  have hload (s : Settings) := load_iff (s := s) hc hdoc honce
  rw [acceptable_iff_of_blank honce hmem hfield hblank] at hload
  have hrefused : (∃ f, load d path = .error f) ↔ ¬ ∃ s, load d path = .ok s := by
    cases load d path <;> simp
  have hloads : (∃ s, load d path = .ok s) ↔
      (k ≠ encodingKey ∧ Fitting doc) ∧ ∃ s, Overlaid doc.entries s ∧ s.Valid := by
    simp only [hload]
    constructor
    · rintro ⟨s, -, hacceptable, hs, hvalid⟩
      exact ⟨hacceptable, s, hs, hvalid⟩
    · rintro ⟨hacceptable, s, hs, hvalid⟩
      exact ⟨{ s with path := path }, rfl, hacceptable, ⟨hs.indent, hs.encoding, hs.extensions⟩,
        ⟨hvalid.indent, hvalid.extensions, hvalid.dotted, hvalid.encoding⟩⟩
  refine ⟨?_, fun s hs => ?_⟩
  · rw [hrefused, hloads, and_assoc, not_and_or, not_not]
  · obtain ⟨-, -, hoverlaid, -⟩ := (hload s).mp hs
    have hsingle := singleValued_of_sound (Toml.Document.sound_of_read hdoc)
    have hencoding := encoding_of_mem honce hsingle hoverlaid hmem hfield
    exact ⟨hencoding, hencoding ▸ ofName_blank hblank⟩

/-- White space under the exact name is refused. -/
theorem blank_refused_iff_exact :
    let d := settingsDisk (bytes "files.encoding = ' '\n")
    let k : Toml.Key := [bytes "files", bytes "encoding"]
    (∃ doc, Toml.Document.read (bytes "files.encoding = ' '\n") = .ok doc ∧
      (k, .leaf (.string (bytes " "))) ∈ doc.entries) ∧ ∃ f, load d fileName = .error f := by
  intro d k
  let doc : Toml.Document :=
    ⟨[([bytes "files"], .table), (k, .leaf (.string (bytes " ")))], [k], [], [[bytes "files"]]⟩
  have hread : d.read fileName = .ok (bytes "files.encoding = ' '\n") := by decide +kernel
  have hdoc : Toml.Document.read (bytes "files.encoding = ' '\n") = .ok doc := rfl
  have hmem : (k, .leaf (.string (bytes " "))) ∈ doc.entries := by simp [doc]
  have honce : SpelledOnce doc.entries := by
    rintro k₁ v₁ k₂ v₂ hmem₁ hmem₂ - -
    simp [doc] at hmem₁ hmem₂
    rw [hmem₁.1, hmem₂.1]
  have hrefused := blank_refused_iff hread hdoc honce hmem ofKey?_encodingKey (by decide +kernel)
  exact ⟨⟨doc, hdoc, hmem⟩, hrefused.1.mpr (.inl rfl)⟩

/-- With capitals in the names an empty encoding is not refused. -/
theorem blank_not_refused :
    let d := settingsDisk (bytes "[Files]\nEncoding = \"\"\n")
    let k : Toml.Key := [bytes "Files", bytes "Encoding"]
    (∃ doc, Toml.Document.read (bytes "[Files]\nEncoding = \"\"\n") = .ok doc ∧
      (k, .leaf (.string [])) ∈ doc.entries) ∧
    Field.ofKey? k = some .encoding ∧ Text.trim [] = [] ∧
      load d fileName = .ok { standard with path := fileName, encoding := [] } := by
  refine ⟨⟨_, rfl, List.mem_of_getElem? (i := 1) rfl⟩, ?_⟩
  decide +kernel

end Settings

end Restyler
