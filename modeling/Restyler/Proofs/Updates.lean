import Restyler.Proofs.Codecs
import Restyler.Proofs.Content
import Restyler.Proofs.Run

/-!
# What an update changes besides the text

An update encodes the whole text anew. The bytes of a file that is updated would have come back from
its text unchanged if and only if the codec restores them. Only under UTF-16 it may not: there a
decoded text can always be written, while a single-byte set refuses the character that stands for
what it could not read, and the pipeline leaves that character where it is.
-/

namespace Restyler

-- --------------------------------------------------------------------
-- Texts that were read with losses

namespace Pipeline

/-- The pipeline keeps the characters outside ASCII. -/
theorem filter_isWide_apply (width : Int) (s : Bytes) :
    ((ofWidth width).apply s).filter Utf8.isWide = s.filter Utf8.isWide := by
  rw [← List.filterMap_eq_filter]
  refine filterMap_apply ?_ rfl rfl width s
  intro b hb
  simp only [Rule.isLayout, Rule.isIndent, Bool.or_eq_true, beq_iff_eq] at hb
  rcases hb with (rfl | rfl) | rfl <;> rfl

end Pipeline

namespace Codec

def isUtf16 : Codec → Bool
  | .utf16 | .utf16be | .utf16le => true
  | .utf8 | .page _ | .multibyte _ => false

/-- A text that can be written after the pipeline was read from contents that are all defined. -/
theorem all_defines_of_encode? {codec : Codec} {p : CodePage} (hp : codec.page? = some p)
    {width : Int} {c before data : Bytes} (hdecode : codec.decode? c = some before)
    (hencode : codec.encode? ((Pipeline.ofWidth width).apply before) = some data) :
    c.all p.defines = true := by
  rw [decode?_of_page? hp] at hdecode
  rw [encode?_of_page? hp] at hencode
  obtain ⟨cs, hsymbols, hcs⟩ := CodePage.exists_chars_of_encode? hencode
  have hwide := Pipeline.filter_isWide_apply width before
  rw [Utf8.eq_encode_of_symbols hsymbols, ← Option.some.inj hdecode, Utf8.filter_isWide_encode,
    Utf8.filter_isWide_encode] at hwide
  have hchars := Utf8.encode_inj hwide
  rw [List.all_eq_true]
  intro b hb
  by_contra hundefined
  -- The byte was read as the replacement character, which is still there in the text written.
  have hread : replacement ∈ p.decode c := by
    rw [← CodePage.decodeByte_of_not_defines (Bool.eq_false_iff.mpr hundefined)]
    exact List.mem_map_of_mem hb
  have hkept : replacement ∈ cs.filter fun c => 0x80 ≤ c.toNat := by
    rw [hchars]
    exact List.mem_filter.mpr ⟨hread, by decide⟩
  exact hcs (List.mem_filter.mp hkept).1

theorem restores_of_encode? {codec : Codec} (h : codec.isUtf16 = false) {width : Int}
    {c before data : Bytes} (hplain : codec.Plain c) (hdecode : codec.decode? c = some before)
    (hencode : codec.encode? ((Pipeline.ofWidth width).apply before) = some data) :
    codec.Restores c := by
  cases hp : codec.page? with
  | some p => exact (restores_of_page? hp c).mpr (all_defines_of_encode? hp hdecode hencode)
  | none =>
    cases codec with
    | utf8 => exact (Option.ite_none_right_eq_some.mp hdecode).1
    | page q => exact absurd hp nofun
    | multibyte set => exact hplain set rfl
    | utf16 | utf16be | utf16le => exact absurd h nofun

end Codec

-- --------------------------------------------------------------------
-- Updates of a run

/-- An outcome that updated a file was written, so its text has an encoding. This is known from the
disk at the end, or from the next outcome that updated the file and started from what was there. -/
theorem Account.encode_of_updated {options : Options} {trace : Option Location} {d e : Disk}
    {earlier later : List Outcome} {o : Outcome} {l : Location}
    (h : Account options trace d e (earlier ++ o :: later)) (hl : d.fileAt? o.path = some l)
    (htrace : trace ≠ some l) (hupdated : o.status = .updated) :
    ∃ data, options.encoding.encode o.after = .ok data := by
  have hnode := h.nodes l htrace
  have hfaithful := h.faithful
  generalize e.tree.get? l = n at hnode
  clear h
  induction later using List.reverseRecOn generalizing n with
  | nil =>
    rw [NodeAfter, lastUpdate_concat, if_pos ⟨hupdated, hl⟩] at hnode
    obtain ⟨-, -, data, -, hdata, -⟩ := hnode
    exact ⟨data, hdata⟩
  | append_singleton later x ih =>
    have hsplit : earlier ++ o :: (later ++ [x]) = (earlier ++ o :: later) ++ [x] := by simp
    rw [hsplit] at hnode hfaithful
    have hprefix : ∀ earlier' y later', earlier ++ o :: later = earlier' ++ y :: later' →
        y.Faithful options trace d earlier' := by
      intro earlier' y later' heq
      exact hfaithful earlier' y (later' ++ [x]) (by rw [heq]; simp)
    by_cases hx : x.status = .updated ∧ d.fileAt? x.path = some l
    · obtain ⟨k, m, c, hk, -, hloaded⟩ := (hfaithful _ x [] rfl).loaded
      obtain rfl : l = k := Option.some.inj (hx.2.symm.trans hk)
      exact ih hprefix _ (hloaded htrace)
    · rw [NodeAfter, lastUpdate_concat, if_neg hx] at hnode
      exact ih hprefix n hnode

/-- The bytes that an updated file was loaded from come back from its text exactly if the codec
restores them, and outside UTF-16 they always do. Under a multi-byte set this is so of plain
contents. -/
theorem Watch.updated_restores_iff {library : Bytes → Multibyte} {name : Bytes}
    {encoding : Encoding} (hname : Encoding.ofName name library = .ok encoding) (dryRun : Bool)
    (width : Int) (extensions : List Bytes) (reporter : Option (Nat → Outcome → Reply))
    (interrupted : Nat → Bool) (w : World Watch) (paths : List Bytes) (canceled : Bool) :
    let options : Options := ⟨dryRun, encoding, .ofWidth width, extensions⟩
    let job : Job Watch := ⟨Watch.observer, options, reporter, interrupted⟩
    let trace := w.watch.sink.place?
    ∀ earlier o later, (job.run w paths canceled).results = earlier ++ o :: later →
      o.status = .updated →
      ∃ l m c, w.disk.fileAt? o.path = some l ∧ encoding.decode c = .ok o.before ∧
        (trace ≠ some l → NodeAfter w.disk encoding earlier l (some (.file m c))) ∧
        (encoding.codec.Plain c →
          (encoding.encode o.before = .ok c ↔ encoding.codec.Restores c) ∧
          (trace ≠ some l → encoding.codec.isUtf16 = false → encoding.encode o.before = .ok c)) := by
  intro options job trace earlier o later hresults hupdated
  have hobs : job.observer.KeepsTo fun w => w.sink.place? := Watch.observer_keepsTo
  have haccount := (Job.run_balanced hobs w paths canceled).account
  rw [hresults] at haccount
  have hfaithful := haccount.faithful earlier o later rfl
  obtain ⟨l, m, c, hl, hdecode, hnode⟩ := hfaithful.loaded
  refine ⟨l, m, c, hl, hdecode, hnode, fun hplain => ?_⟩
  have hiff : encoding.encode o.before = .ok c ↔ encoding.codec.Restores c := by
    rw [Encoding.encode_ok]
    exact Codec.encode?_eq_some_iff (Encoding.isNamed_of_ofName hname)
      (Encoding.decode_ok.mp hdecode) hplain
  refine ⟨hiff, fun htrace hcodec => hiff.mpr ?_⟩
  obtain ⟨data, hdata⟩ := haccount.encode_of_updated hl htrace hupdated
  rw [hfaithful.after_eq] at hdata
  exact Codec.restores_of_encode? hcodec hplain (Encoding.decode_ok.mp hdecode)
    (Encoding.encode_ok.mp hdata)

theorem Watch.updated_restores_latin1 :
    let latin1 : Encoding := ⟨bytes "iso-8859-1", .page .iso8859_1⟩
    let w := World.ofNodes [(bytes "a.js", .file .ofFile [0x22, 0xE9, 0x22])]
    ∃ l m c, w.disk.fileAt? (bytes "a.js") = some l ∧ w.disk.tree.get? l = some (.file m c) ∧
      latin1.encode (bytes "\"é\"") = .ok c := by
  intro latin1 w
  have hname : Encoding.ofName (bytes "iso-8859-1") = .ok latin1 :=
    Encoding.ofName_of_findIdx? (i := 18) (by decide +kernel) (by decide +kernel)
      (by decide +kernel) rfl (by simp) _
  have hresults : (Job.run ⟨Watch.observer, ⟨false, latin1, .ofWidth 2, []⟩, none, fun _ => false⟩ w
      [bytes "a.js"] false).results =
      [] ++ ⟨bytes "a.js", .updated, bytes "\"é\"", bytes "'é'"⟩ :: [] := by
    decide +kernel
  obtain ⟨l, m, c, hl, -, hnode, hrestored⟩ := Watch.updated_restores_iff hname false 2 [] none
    (fun _ => false) w [bytes "a.js"] false [] _ [] hresults rfl
  have hplain : latin1.codec.Plain c := Codec.plain_of_not_isMultibyte rfl c
  exact ⟨l, m, c, hl, (hnode nofun).symm, (hrestored hplain).2 nofun rfl⟩

/-- UTF-16 in little-endian order comes back in big-endian order. -/
theorem Watch.updated_not_restored :
    let utf16 : Encoding := ⟨bytes "utf-16", .utf16⟩
    let loaded : Bytes := [0xFF, 0xFE, 0x22, 0, 0x61, 0, 0x22, 0]
    let w := World.ofNodes [(bytes "a.js", .file .ofFile loaded)]
    let r := Job.run ⟨Watch.observer, ⟨false, utf16, .ofWidth 2, []⟩, none, fun _ => false⟩ w
      [bytes "a.js"] false
    Encoding.ofName (bytes "utf-16") = .ok utf16 ∧
      r.results = [⟨bytes "a.js", .updated, bytes "\"a\"", bytes "'a'"⟩] ∧
      r.world.disk.tree.get? [bytes "a.js"] =
        some (.file .ofFile [0xFE, 0xFF, 0, 0x27, 0, 0x61, 0, 0x27]) ∧
      utf16.encode (bytes "\"a\"") ≠ .ok loaded := by
  intro utf16 loaded w r
  have hname : Encoding.ofName (bytes "utf-16") = .ok utf16 :=
    Encoding.ofName_of_findIdx? (i := 2) (by decide +kernel) (by decide +kernel)
      (by decide +kernel) rfl (by simp) _
  refine ⟨hname, ?_⟩
  decide +kernel

end Restyler
