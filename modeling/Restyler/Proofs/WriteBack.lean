import Restyler.Proofs.Updates

/-!
# What the pipeline makes can be written

The rules replace single bytes below 0x80, and what they put there is below 0x80 as well: the byte
itself, layout, a quote character or a backslash. Such a byte is a character of its own, so the
bytes of no other character are cut, and a valid text stays valid. Every character set has the few
characters that the rules write. Hence a text that was read without loss can be written after the
pipeline, and is read again as it was written.
-/

namespace Restyler

-- --------------------------------------------------------------------
-- Edits of single bytes

namespace Rule

/-- The bytes that the rules write, those apart that they copy to where they were. -/
def written : Bytes :=
  [Byte.tab, Byte.newline, Byte.space, Byte.quote, Byte.apostrophe, Byte.backslash]

/-- The second text is the first one with some bytes below 0x80 replaced. -/
inductive Edited : Bytes → Bytes → Prop
  | nil : Edited [] []
  | keep {s t} (b : UInt8) : Edited s t → Edited (b :: s) (b :: t)
  | replace {s t v} {b : UInt8} (hb : b < 0x80) (hv : ∀ c ∈ v, c = b ∨ c ∈ written) :
      Edited s t → Edited (b :: s) (v ++ t)

namespace Edited

variable {s t s' t' : Bytes}

theorem append (h : Edited s t) (h' : Edited s' t') : Edited (s ++ s') (t ++ t') := by
  induction h with
  | nil => exact h'
  | keep b _ ih => exact .keep b ih
  | replace hb hv _ ih =>
    rw [List.append_assoc]
    exact .replace hb hv ih

theorem refl (s : Bytes) : Edited s s := by
  induction s with
  | nil => exact .nil
  | cons b s ih => exact .keep b ih

theorem onLines {f : Bytes → Bytes} {s : Bytes} (h : ∀ l, Edited l (f l)) :
    Edited s (onLines f s) := by
  have hjoin (ls : List Bytes) :
      Edited (joinWith [Byte.newline] ls) (joinWith [Byte.newline] (ls.map f)) := by
    induction ls with
    | nil => exact .nil
    | cons l ls ih =>
      cases ls with
      | nil => exact h l
      | cons m ms =>
        rw [List.map_cons, joinWith_cons _ l (List.cons_ne_nil m ms),
          joinWith_cons _ (f l) (by simp)]
        exact ((h l).append (refl _)).append ih
  have hs := hjoin (lines s)
  rwa [lines, joinWith_splitOn] at hs

end Edited

theorem Respelled.edited {s t : Bytes} (h : Respelled s t) : Edited s t := by
  have hmark (q : Mark) : q.byte < 0x80 ∧ q.byte ∈ written := by cases q <;> decide
  induction h with
  | nil => exact .nil
  | keep b _ ih => exact .keep b ih
  | swap q r _ ih =>
    refine .replace (v := [r.byte]) (hmark q).1 ?_ ih
    simp [(hmark r).2]
  | escape _ ih =>
    exact .replace (v := [Byte.backslash, Byte.apostrophe]) (by decide) (by simp [written]) ih

theorem edited_spaceFrom (s : Bytes) : Edited s (spaceFrom 0 s) := by
  cases s with
  | nil => exact .nil
  | cons b s =>
    cases hat : keywordAt? (b :: s) with
    | none =>
      rw [spaceFrom_zero_of_none hat]
      exact .keep b (edited_spaceFrom s)
    | some k =>
      obtain ⟨-, r, hr⟩ := keywordAt?_eq_some hat
      have hlt : r.length < s.length + 1 := by
        have hl := congrArg List.length hr
        have hone : (bytes "(").length = 1 := rfl
        simp only [List.length_append, List.length_cons] at hl
        omega
      rw [← hr] at hat ⊢
      rw [spaceFrom_keyword hat, List.append_assoc]
      exact (Edited.refl k).append
        (.replace (v := [Byte.space, 0x28]) (by decide) (by simp [written]) (edited_spaceFrom r))
termination_by s.length

theorem edited_splitLine {unit : Bytes} (hu : IsIndentation unit) (keyword line : Bytes) :
    Edited line (splitLine unit keyword line) := by
  rw [splitLine_eq]
  cases h : detach? keyword line with
  | none => exact .refl line
  | some p =>
    obtain ⟨stem, statement⟩ := p
    have hindent := (isIndentation_takeWhile line).append hu
    have hsplit : Edited (stem ++ Byte.space :: statement)
        (stem ++ (Byte.newline :: (line.takeWhile isIndent ++ unit) ++ statement)) := by
      refine (Edited.refl stem).append (.replace (by decide) ?_ (.refl statement))
      intro c hc
      right
      rcases List.mem_cons.mp hc with rfl | hc
      · decide
      · have hc := hindent c hc
        simp only [isIndent, Bool.or_eq_true, beq_iff_eq] at hc
        rcases hc with rfl | rfl <;> decide
    rwa [← (detach?_eq_some h).1] at hsplit

end Rule

-- --------------------------------------------------------------------
-- Edits of texts

namespace Utf8

open Rule

/-- The character that a byte below 0x80 is. -/
def asChar (b : UInt8) : Char := Char.ofNat b.toNat

theorem encodeChar_asChar {b : UInt8} (hb : b < 0x80) : encodeChar (asChar b) = [b] := by
  have hlow := lt_iff.mp hb
  have hc : (asChar b).toNat = b.toNat := toNat_charOfNat (.inl (by omega))
  rw [encodeChar_eq, hc, if_pos hlow, UInt8.ofNat_toNat]

theorem encode_asChar {v : Bytes} (hv : ∀ b ∈ v, b < 0x80) : encode (v.map asChar) = v := by
  induction v with
  | nil => rfl
  | cons b v ih =>
    obtain ⟨hb, hv⟩ := List.forall_mem_cons.mp hv
    rw [List.map_cons, encode, List.flatMap_cons, encodeChar_asChar hb, ← encode, ih hv]
    rfl

theorem encode_append (cs ds : List Char) : encode (cs ++ ds) = encode cs ++ encode ds :=
  List.flatMap_append

theorem eq_asChar_of_mem {c : Char} {b : UInt8} (hb : b < 0x80) (h : b ∈ encodeChar c) :
    c = asChar b := by
  have hwide := isWide_of_mem_encodeChar h
  have hlow : c.toNat < 0x80 := by
    rw [lt_iff] at hb
    rw [Bool.eq_iff_iff, isWide_iff, decide_eq_true_eq] at hwide
    omega
  rw [encodeChar_eq, if_pos hlow, List.mem_singleton] at h
  rw [asChar, h, toNat_ofNat (by omega), Char.ofNat_toNat]

/-- A byte below 0x80 among the bytes of characters is one of the characters. -/
theorem exists_of_encode_eq_append {cs : List Char} {u w : Bytes} {b : UInt8} (hb : b < 0x80)
    (h : encode cs = u ++ b :: w) :
    ∃ before after, cs = before ++ asChar b :: after ∧ u = encode before ∧ w = encode after := by
  induction cs generalizing u with
  | nil => exact absurd h (by simp [encode])
  | cons c cs ih =>
    rw [encode, List.flatMap_cons, ← encode] at h
    rcases List.append_eq_append_iff.mp h with ⟨v, rfl, hv⟩ | ⟨v, hc, hv⟩
    · obtain ⟨before, after, rfl, rfl, rfl⟩ := ih hv
      exact ⟨c :: before, after, rfl, rfl, rfl⟩
    cases v with
    | nil =>
      rw [List.append_nil] at hc
      obtain ⟨before, after, rfl, hbefore, rfl⟩ := ih (u := []) hv.symm
      refine ⟨c :: before, after, rfl, ?_, rfl⟩
      rw [encode, List.flatMap_cons, ← encode, ← hbefore, hc, List.append_nil]
    | cons b' v =>
      obtain ⟨rfl, rfl⟩ := List.cons.inj hv
      obtain rfl := eq_asChar_of_mem hb (show b ∈ encodeChar c by rw [hc]; simp)
      rw [encodeChar_asChar hb] at hc
      obtain ⟨rfl, rfl⟩ : u = [] ∧ v = [] := by
        cases u with
        | nil => exact ⟨rfl, (List.cons.inj hc).2.symm⟩
        | cons x u => exact absurd (List.cons.inj hc).2 (by simp)
      exact ⟨[], cs, rfl, rfl, rfl⟩

end Utf8

namespace Rule

open Utf8

theorem lt_of_mem_written {b : UInt8} (h : b ∈ written) : b < 0x80 := by
  have hall : written.all (· < 0x80) = true := by decide
  simpa using List.all_eq_true.mp hall b h

/-- A text of characters that are among the given ones, or that the rules write. -/
def MadeFrom (cs : List Char) (t : Bytes) : Prop :=
  ∃ ds, t = encode ds ∧ ∀ d ∈ ds, d ∈ cs ∨ d ∈ written.map asChar

/-- An edit cuts no character. It may be inside of one when it comes to a byte that is kept, hence
the bytes `u` before. -/
theorem Edited.madeFrom_append {s t u : Bytes} {cs : List Char} (h : Edited s t)
    (hcs : encode cs = u ++ s) : MadeFrom cs (u ++ t) := by
  induction h generalizing u cs with
  | nil => exact ⟨cs, hcs.symm, fun d hd => .inl hd⟩
  | keep b _ ih =>
    obtain ⟨ds, hds, hmem⟩ := ih (u := u ++ [b]) (by simpa using hcs)
    exact ⟨ds, by simpa using hds, hmem⟩
  | @replace s t v b hb hv _ ih =>
    obtain ⟨before, after, rfl, rfl, rfl⟩ := exists_of_encode_eq_append hb hcs
    obtain ⟨ds, hds, hmem⟩ := ih (u := []) rfl
    have hlow : ∀ c ∈ v, c < 0x80 := fun c hc => (hv c hc).elim (· ▸ hb) lt_of_mem_written
    refine ⟨before ++ v.map asChar ++ ds, ?_, ?_⟩
    · rw [encode_append, encode_append, encode_asChar hlow, ← hds, List.append_assoc]
      rfl
    · intro d hd
      rw [List.append_assoc, List.mem_append, List.mem_append, List.mem_map] at hd
      rcases hd with hd | ⟨c, hc, rfl⟩ | hd
      · exact .inl (List.mem_append_left _ hd)
      · rcases hv c hc with rfl | hc
        · exact .inl (List.mem_append_right _ List.mem_cons_self)
        · exact .inr (List.mem_map_of_mem hc)
      · exact (hmem d hd).imp_left fun hd => List.mem_append_right _ (List.mem_cons_of_mem _ hd)

theorem Edited.madeFrom {s t : Bytes} {cs : List Char} (h : Edited s t) (hs : MadeFrom cs s) :
    MadeFrom cs t := by
  obtain ⟨ds, rfl, hds⟩ := hs
  obtain ⟨es, hes, hmem⟩ := h.madeFrom_append (u := []) rfl
  refine ⟨es, hes, fun e he => ?_⟩
  rcases hmem e he with he | he
  · exact hds e he
  · exact .inr he

end Rule

namespace Pipeline

open Rule

theorem madeFrom_apply (width : Int) (cs : List Char) :
    MadeFrom cs ((ofWidth width).apply (Utf8.encode cs)) := by
  have hsplit (keyword s : Bytes) : Edited s (splitBefore (ofWidth width).unit keyword s) :=
    .onLines (edited_splitLine (isIndentation_unit width) keyword)
  have hquotes (s : Bytes) : Edited s (normalizeQuotes s) := by
    rw [normalizeQuotes_eq]
    exact .onLines fun l => (normalizeLine_respelled l).edited
  have hkeywords (s : Bytes) : Edited s (spaceKeywords s) := .onLines edited_spaceFrom
  rw [apply_eq, splitConditionals]
  refine (hsplit _ _).madeFrom ((hsplit _ _).madeFrom ((hkeywords _).madeFrom
    ((hquotes _).madeFrom ?_)))
  exact ⟨cs, rfl, fun d hd => .inl hd⟩

end Pipeline

-- --------------------------------------------------------------------
-- Code pages

namespace CodePage

variable {p : CodePage}

/-- A page has a place for each byte at most, and the characters that the rules write. -/
structure Suits (p : CodePage) : Prop where
  length_le : p.codes.length ≤ 256
  holds : (Rule.written.all fun b => (p.encodeChar? (Utf8.asChar b)).isSome) = true

instance (p : CodePage) : Decidable p.Suits :=
  decidable_of_iff (_ ∧ _) ⟨fun h => ⟨h.1, h.2⟩, fun h => ⟨h.1, h.2⟩⟩

theorem decodeByte_of_encodeChar? (hp : p.codes.length ≤ 256) {c : Char} {b : UInt8}
    (h : p.encodeChar? c = some b) : p.decodeByte b = c := by
  obtain ⟨-, h⟩ := Option.ite_none_left_eq_some.mp h
  obtain ⟨i, hi, rfl⟩ := Option.map_eq_some_iff.mp h
  obtain ⟨hlt, hget, -⟩ := List.idxOf?_eq_some_iff.mp hi
  have hindex : i.toUInt8.toNat = i := Utf8.toNat_ofNat (by omega)
  rw [decodeByte, hindex, List.getD_eq_getElem?_getD, List.getElem?_eq_getElem hlt,
    Option.getD_some, hget, Char.ofNat_toNat]

theorem encode?_map_char (p : CodePage) (cs : List Char) :
    p.encode? (cs.map .char) = cs.mapM p.encodeChar? := by
  rw [encode?, List.mapM_map]
  rfl

/-- What is written is read back. -/
theorem decode_of_encode? (hp : p.codes.length ≤ 256) {cs : List Char} {data : Bytes}
    (h : p.encode? (cs.map .char) = some data) : p.decode data = cs := by
  rw [encode?_map_char] at h
  induction cs generalizing data with
  | nil =>
    rw [← Option.some.inj h]
    rfl
  | cons c cs ih =>
    rw [List.mapM_cons, Option.bind_eq_bind, Option.bind_eq_some_iff] at h
    obtain ⟨b, hb, h⟩ := h
    rw [Option.bind_eq_bind, Option.bind_eq_some_iff] at h
    obtain ⟨rest, hrest, h⟩ := h
    rw [← Option.some.inj h, decode, List.map_cons, decodeByte_of_encodeChar? hp hb, ← decode,
      ih hrest]

theorem exists_encode? {cs : List Char} (h : ∀ c ∈ cs, (p.encodeChar? c).isSome = true) :
    ∃ data, p.encode? (cs.map .char) = some data := by
  rw [encode?_map_char]
  induction cs with
  | nil => exact ⟨[], rfl⟩
  | cons c cs ih =>
    obtain ⟨hc, hcs⟩ := List.forall_mem_cons.mp h
    obtain ⟨b, hb⟩ := Option.isSome_iff_exists.mp hc
    obtain ⟨data, hdata⟩ := ih hcs
    exact ⟨b :: data, by simp [hb, hdata]⟩

/-- A character that was read can be written, unless it stands for an undefined byte. -/
theorem Sound.isSome_encodeChar? (hp : p.Sound) {data : Bytes} (h : replacement ∉ p.decode data)
    {c : Char} (hc : c ∈ p.decode data) : (p.encodeChar? c).isSome = true := by
  obtain ⟨b, hb, rfl⟩ := List.mem_map.mp hc
  have hdefined : p.defines b = true := by
    refine Bool.of_not_eq_false fun hb' => h ?_
    rw [← decodeByte_of_not_defines hb']
    exact hc
  rw [hp.encodeChar?_decodeByte, if_pos hdefined]
  rfl

theorem Sound.replacement_notMem (hp : p.Sound) {data : Bytes}
    (h : ∀ b ∈ data, p.defines b = true) : replacement ∉ p.decode data := by
  intro hmem
  obtain ⟨b, hb, hread⟩ := List.mem_map.mp hmem
  have hwritten := hp.encodeChar?_decodeByte b
  rw [hread, if_pos (h b hb)] at hwritten
  simp [encodeChar?] at hwritten

end CodePage

-- --------------------------------------------------------------------
-- Encodings

namespace Codec

theorem suits_of_isNamed {codec : Codec} {p : CodePage} (h : codec.IsNamed)
    (hp : codec.page? = some p) : p.Suits := by
  have hall : ∀ entry ∈ named, ∀ p ∈ entry.1.page?, p.Suits := by decide +kernel
  obtain ⟨names, hmem⟩ := h
  exact hall _ hmem p hp

theorem not_isMultibyte_of_isNamed {codec : Codec} (h : codec.IsNamed) :
    codec.isMultibyte = false := by
  have hall : ∀ entry ∈ named, entry.1.isMultibyte = false := by decide +kernel
  obtain ⟨names, hmem⟩ := h
  exact hall _ hmem

/-- Whatever is read is a text. -/
theorem exists_encode_of_decode? {codec : Codec} {data t : Bytes}
    (h : codec.decode? data = some t) : ∃ cs, t = Utf8.encode cs := by
  cases codec with
  | utf8 =>
    obtain ⟨hvalid, heq⟩ := Option.ite_none_right_eq_some.mp h
    rw [← Option.some.inj heq]
    exact Utf8.valid_iff_encode.mp hvalid
  | utf16 | utf16be | utf16le | page | multibyte => exact ⟨_, (Option.some.inj h).symm⟩

/-- The Unicode encodings write every text, and read it as it was. -/
theorem decode?_encode?_of_page?_none {codec : Codec} (hp : codec.page? = none)
    (hsingle : codec.isMultibyte = false) (cs : List Char) :
    ∃ data, codec.encode? (Utf8.encode cs) = some data ∧
      codec.decode? data = some (Utf8.encode cs) := by
  cases codec with
  | utf8 =>
    refine ⟨_, rfl, ?_⟩
    rw [decode?, if_pos (Utf8.valid_iff_encode.mpr ⟨cs, rfl⟩)]
  | utf16 =>
    refine ⟨_, rfl, ?_⟩
    rw [Utf8.chars_encode, decode?, Utf16.encodeMarked, Utf16.decodeMarked, Utf16.decode_encode]
  | utf16be | utf16le =>
    refine ⟨_, rfl, ?_⟩
    rw [Utf8.chars_encode, decode?, Utf16.decode_encode]
  | page => simp [page?] at hp
  | multibyte => simp [isMultibyte] at hsingle

theorem decode?_of_encode?_of_page? {codec : Codec} {p : CodePage} (hp : codec.page? = some p)
    (hsuits : p.Suits) {cs : List Char} {data : Bytes}
    (h : codec.encode? (Utf8.encode cs) = some data) :
    codec.decode? data = some (Utf8.encode cs) := by
  rw [encode?_of_page? hp, Utf8.symbols_encode] at h
  rw [decode?_of_page? hp, CodePage.decode_of_encode? hsuits.length_le h]

end Codec

namespace Encoding

theorem exists_written (e : Encoding) (hnamed : e.codec.IsNamed) (width : Int) {data t : Bytes}
    (h : e.decode data = .ok t) (hclean : replacement ∉ Utf8.chars t) :
    ∃ out, e.encode ((Pipeline.ofWidth width).apply t) = .ok out ∧
      e.decode out = .ok ((Pipeline.ofWidth width).apply t) := by
  simp only [encode_ok, decode_ok]
  have hdecode := decode_ok.mp h
  obtain ⟨cs, rfl⟩ := Codec.exists_encode_of_decode? hdecode
  obtain ⟨ds, hds, hmem⟩ := Pipeline.madeFrom_apply width cs
  rw [Utf8.chars_encode] at hclean
  rw [hds]
  cases hp : e.codec.page? with
  | none =>
    exact Codec.decode?_encode?_of_page?_none hp (Codec.not_isMultibyte_of_isNamed hnamed) ds
  | some p =>
    have hsuits := Codec.suits_of_isNamed hnamed hp
    rw [Codec.decode?_of_page? hp] at hdecode
    have hcs := Utf8.encode_inj (Option.some.inj hdecode)
    have hencodable : ∀ d ∈ ds, (p.encodeChar? d).isSome = true := by
      intro d hd
      rcases hmem d hd with hd | hd
      · rw [← hcs] at hd hclean
        exact (Codec.sound_of_isNamed hnamed hp).isSome_encodeChar? hclean hd
      · obtain ⟨b, hb, rfl⟩ := List.mem_map.mp hd
        exact List.all_eq_true.mp hsuits.holds b hb
    obtain ⟨out, hout⟩ := CodePage.exists_encode? hencodable
    rw [← Utf8.symbols_encode, ← Codec.encode?_of_page? hp] at hout
    exact ⟨out, hout, Codec.decode?_of_encode?_of_page? hp hsuits hout⟩

/-- After the pipeline a text is valid still. One that was read without loss can be written, and is
read again as it was written; under a single-byte set nothing but an undefined byte in what was read
keeps it from being written. -/
theorem apply_written_back {e : Encoding} (hnamed : e.codec.IsNamed) (width : Int) {data t : Bytes}
    (h : e.decode data = .ok t) :
    let after := (Pipeline.ofWidth width).apply t
    Utf8.valid after = true ∧
      (replacement ∉ Utf8.chars t →
        ∃ out, e.encode after = .ok out ∧ e.decode out = .ok after) ∧
      ∀ p, e.codec = .page p →
        ((∃ f, e.encode after = .error f) ↔ ∃ b ∈ data, p.defines b = false) := by
  intro after
  have hdecode := decode_ok.mp h
  obtain ⟨cs, rfl⟩ := Codec.exists_encode_of_decode? hdecode
  have hwritten := exists_written e hnamed width h
  refine ⟨?_, hwritten, fun p he => ?_⟩
  · obtain ⟨ds, hds, -⟩ := Pipeline.madeFrom_apply width cs
    exact Utf8.valid_iff_encode.mpr ⟨ds, hds⟩
  have hp : e.codec.page? = some p := by rw [he]; rfl
  constructor
  · rintro ⟨f, hf⟩
    by_contra hnone
    have hdefined : ∀ b ∈ data, p.defines b = true := fun b hb =>
      Bool.of_not_eq_false fun hb' => hnone ⟨b, hb, hb'⟩
    have hclean : replacement ∉ Utf8.chars (Utf8.encode cs) := by
      rw [Codec.decode?_of_page? hp] at hdecode
      rw [← Option.some.inj hdecode, Utf8.chars_encode]
      exact (Codec.sound_of_isNamed hnamed hp).replacement_notMem hdefined
    obtain ⟨out, hout, -⟩ := hwritten hclean
    rw [hf] at hout
    exact absurd hout nofun
  · rintro ⟨b, hb, hundefined⟩
    cases hout : e.encode after with
    | error f => exact ⟨f, rfl⟩
    | ok out =>
      have hdefined := Codec.all_defines_of_encode? hp hdecode (encode_ok.mp hout)
      rw [List.all_eq_true.mp hdefined b hb] at hundefined
      exact absurd hundefined nofun

/-- The backslash that the quotes step writes has another byte in EBCDIC than in ASCII. -/
theorem apply_written_back_ebcdic :
    let ebcdic : Encoding := ⟨bytes "ibm037", .page .ibm037⟩
    ebcdic.decode [0x7F, 0x89, 0xA3, 0x7D, 0xA2, 0x7F] = .ok (bytes "\"it's\"") ∧
      ∃ out, ebcdic.encode (bytes "'it\\'s'") = .ok out ∧
        ebcdic.decode out = .ok (bytes "'it\\'s'") := by
  intro ebcdic
  have hname : ofName (bytes "ibm037") = .ok ebcdic :=
    ofName_of_findIdx? (i := 5) (by decide +kernel) (by decide +kernel) (by decide +kernel) rfl
      (by simp) _
  have hdecode : ebcdic.decode [0x7F, 0x89, 0xA3, 0x7D, 0xA2, 0x7F] = .ok (bytes "\"it's\"") := by
    decide +kernel
  have hafter : (Pipeline.ofWidth 2).apply (bytes "\"it's\"") = bytes "'it\\'s'" := by
    decide +kernel
  obtain ⟨-, hwritten, -⟩ := apply_written_back (isNamed_of_ofName hname rfl) 2 hdecode
  rw [hafter] at hwritten
  exact ⟨hdecode, hwritten (by decide +kernel)⟩

end Encoding

end Restyler
