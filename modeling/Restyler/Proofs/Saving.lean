import Restyler.Proofs.ReadBack

/-!
# A file that is open

A file that was loaded is saved and loaded again, any number of times, while nothing else touches
the disk. Loading it once more would always give what is at hand, so its text is what its contents
on the disk decode to. A call that fails, because a text cannot be encoded or the file may not be
written to, changes neither the text nor the disk: the text is taken over last, and the disk is
changed by a write that succeeds only.
-/

namespace Restyler

namespace Disk

/-- A path still names its file after a change of contents. -/
theorem Within.resolve_file {places : Location → Prop} {d e : Disk} (h : Within places d e)
    {p : Bytes} {l : Location} {m : Mode} {c c' : Bytes}
    (hd : d.resolve p = .ok (.found l (.file m c))) (he : e.tree.get? l = some (.file m c')) :
    e.resolve p = .ok (.found l (.file m c')) := by
  have hkept {n : Node} (hr : e.resolve p = .ok (.found l n)) : n = .file m c' :=
    Option.some.inj ((get?_of_locate (locate_of_resolve hr)).symm.trans he)
  rcases h.resolve_cases p with hr | ⟨k, m', c₁, c₂, hd', hr⟩
  · rw [hd] at hr
    rw [hr, hkept hr]
  · rw [hd] at hd'
    cases hd'
    rw [hr, hkept hr]

theorem read_of_resolve {d : Disk} {p : Bytes} {l : Location} {m : Mode} {c : Bytes}
    (h : d.resolve p = .ok (.found l (.file m c))) (hm : m.readable = true) :
    d.read p = .ok c := by
  simp [read, openToRead, h, Node.mode, hm]

end Disk

namespace SourceFile

-- --------------------------------------------------------------------
-- Loading again

/-- Once a path leads to a file, its mode and its contents decide. -/
theorem load_of_resolve {d : Disk} {path : Bytes} {l : Location} {m : Mode} {c : Bytes}
    (h : d.resolve path = .ok (.found l (.file m c))) (encoding : Encoding) :
    load d path encoding =
      if m.readable then
        match encoding.decode c with
        | .ok text => .ok ⟨path, text, encoding, m⟩
        | .error f => .error (.within path f)
      else .error (.os ⟨"open", path, .accessDenied⟩) := by
  rw [load, Disk.read, Disk.openToRead, Disk.stat, h]
  cases hm : Mode.readable m with
  | false => simp [Disk.refused, Node.isDir, Node.mode, hm, ofOs, bind, Except.bind]
  | true =>
    simp only [Disk.refused, Node.isDir, Node.mode, hm, ofOs, bind, Except.bind]
    rfl

theorem load_eq_ok {d : Disk} {path : Bytes} {encoding : Encoding} {f : SourceFile} :
    load d path encoding = .ok f ↔ ∃ l m c, d.resolve path = .ok (.found l (.file m c)) ∧
      m.readable = true ∧ encoding.decode c = .ok f.text ∧ f = ⟨path, f.text, encoding, m⟩ := by
  constructor
  · intro h
    obtain ⟨-, -, l, -, -, hl, -⟩ := load_ok h
    obtain ⟨m, c, hresolve⟩ := Disk.fileAt?_eq_some.mp hl
    rw [load_of_resolve hresolve] at h
    split at h
    · next hreadable =>
      split at h
      · next text htext =>
        cases h
        exact ⟨l, m, c, hresolve, hreadable, htext, rfl⟩
      · cases h
    · cases h
  · rintro ⟨l, m, c, hresolve, hreadable, htext, hf⟩
    rw [load_of_resolve hresolve, if_pos hreadable, htext]
    exact congrArg Except.ok hf.symm

/-- A save puts the encoded text in the file's place, and the file is the same but for its text. -/
theorem put_of_resolve {f g : SourceFile} {d d' : Disk} {l : Location} {m : Mode} {c text : Bytes}
    (hresolve : d.resolve f.path = .ok (.found l (.file m c)))
    (hput : f.put d text = ((g, d'), none)) :
    d.tree.permits l Mode.writable = true ∧ g = { f with text := text } ∧
      Disk.Within (· = l) d d' ∧ ∃ data, f.encoding.encode text = .ok data ∧
        d'.resolve f.path = .ok (.found l (.file m data)) := by
  have hl : d.fileAt? f.path = some l := Disk.fileAt?_eq_some.mpr ⟨m, c, hresolve⟩
  obtain ⟨m', c', data, hget, hdata, hset, hwithin⟩ := save_ok hl (save_eq_ok.mpr hput)
  rw [Disk.get?_of_locate (Disk.locate_of_resolve hresolve)] at hget
  cases hget
  unfold put at hput
  simp only [hdata] at hput
  split at hput
  · cases hput
  · next hwrite =>
    cases hput
    exact ⟨Disk.permits_of_write hl hwrite, rfl, hwithin, data, hdata,
      hwithin.resolve_file hresolve hset⟩

-- --------------------------------------------------------------------
-- Calls

/-- What can be done with a file that was loaded. -/
inductive Call where
  | save (text : Bytes)
  | reload
  deriving DecidableEq

namespace Call

/-- Carries out a call on a file and the disk that it is on. Both are what they are then, also after
a failure: a file that cannot be loaded again stays at hand. -/
def perform : Call → SourceFile × Disk → (SourceFile × Disk) × Option Failure
  | .save text, (f, d) => f.put d text
  | .reload, (f, d) =>
    match load d f.path f.encoding with
    | .ok g => ((g, d), none)
    | .error x => ((f, d), some x)

def after (call : Call) (s : SourceFile × Disk) : SourceFile × Disk := (call.perform s).1

def afterAll (calls : List Call) (s : SourceFile × Disk) : SourceFile × Disk :=
  calls.foldl (fun s call => call.after s) s

end Call

/-- A file is at hand as it would be loaded now, and nothing else was changed since it was. -/
structure InStep (d : Disk) (l : Location) (path : Bytes) (e : Encoding)
    (s : SourceFile × Disk) : Prop where
  path_eq : s.1.path = path
  encoding_eq : s.1.encoding = e
  place : d.fileAt? path = some l
  within : Disk.Within (· = l) d s.2
  loaded : load s.2 path e = .ok s.1

namespace InStep

variable {d : Disk} {l : Location} {path : Bytes} {e : Encoding} {s s' : SourceFile × Disk}

theorem start {f : SourceFile} (h : load d path e = .ok f) : ∃ l, InStep d l path e (f, d) := by
  obtain ⟨hpath, hencoding, l, -, -, hl, -⟩ := load_ok h
  exact ⟨l, hpath, hencoding, hl, .refl d, h⟩

theorem read (h : InStep d l path e s) :
    ∃ data, s.2.read path = .ok data ∧ e.decode data = .ok s.1.text := by
  obtain ⟨k, m, c, hresolve, hreadable, htext, -⟩ := load_eq_ok.mp h.loaded
  exact ⟨c, Disk.read_of_resolve hresolve hreadable, htext⟩

theorem reload (h : InStep d l path e s) : Call.reload.perform s = (s, none) := by
  obtain ⟨f, d'⟩ := s
  obtain ⟨rfl, rfl, -, -, hloaded⟩ := h
  simp only at hloaded
  simp [Call.perform, hloaded]

theorem fileAt? (h : InStep d l path e s) : s.2.fileAt? s.1.path = some l := by
  rw [h.within.fileAt?, h.path_eq, h.place]

theorem save_ok (h : InStep d l path e s) {text : Bytes}
    (hsave : (Call.save text).perform s = (s', none)) :
    d.tree.permits l Mode.writable = true ∧ s'.1.text = text ∧
      ∃ data, e.encode text = .ok data ∧ s'.2.read path = .ok data ∧
        (e.decode data = .ok text → InStep d l path e s') := by
  have hl := h.fileAt?
  have hpermits := h.within.form.permits l Mode.writable
  obtain ⟨f, d'⟩ := s
  obtain ⟨g, d''⟩ := s'
  obtain ⟨rfl, rfl, hplace, hwithin, hloaded⟩ := h
  obtain ⟨k, m, c, hresolve, hreadable, -, hf⟩ := load_eq_ok.mp hloaded
  obtain ⟨hwritable, rfl, hchange, data, hdata, hresolve'⟩ := put_of_resolve hresolve hsave
  obtain rfl : l = k :=
    Option.some.inj (hl.symm.trans (Disk.fileAt?_eq_some.mpr ⟨m, c, hresolve⟩))
  refine ⟨hpermits ▸ hwritable, rfl, data, hdata, Disk.read_of_resolve hresolve' hreadable,
    fun hback => ?_⟩
  refine ⟨rfl, rfl, hplace, hwithin.trans hchange, ?_⟩
  have hmode : f.mode = m := congrArg SourceFile.mode hf
  exact load_eq_ok.mpr ⟨l, m, data, hresolve', hreadable, hback, by rw [← hmode]⟩

theorem save_error (h : InStep d l path e s) {text : Bytes} {x : Failure}
    (hsave : (Call.save text).perform s = (s', some x)) :
    s' = s ∧ ((∃ y, e.encode text = .error y) ∨ d.tree.permits l Mode.writable = false) := by
  have hl := h.fileAt?
  have hpermits := h.within.form.permits l Mode.writable
  obtain ⟨f, d'⟩ := s
  obtain ⟨rfl, rfl, -⟩ := h
  obtain rfl : s' = (f, d') := state_of_put_error hsave
  refine ⟨rfl, (SourceFile.save_error hl (save_eq_error.mpr hsave)).imp ?_ ?_⟩
  · exact fun ⟨y, hy, _⟩ => ⟨y, hy⟩
  · exact fun hdenied => hpermits ▸ hdenied.1

theorem save_unencodable (h : InStep d l path e s) {text : Bytes} {x : Failure}
    (hx : e.encode text = .error x) :
    (Call.save text).perform s = (s, some (.within path x)) := by
  obtain ⟨f, d'⟩ := s
  obtain ⟨rfl, rfl, -⟩ := h
  simp [Call.perform, put, hx]

theorem after (h : InStep d l path e s) (call : Call)
    (hback : ∀ text, call = .save text →
      ∀ data, e.encode text = .ok data → e.decode data = .ok text) :
    InStep d l path e (call.after s) := by
  cases call with
  | reload => rwa [Call.after, h.reload]
  | save text =>
    rcases hsave : (Call.save text).perform s with ⟨s', x?⟩
    rw [Call.after, hsave]
    cases x? with
    | some x =>
      obtain ⟨rfl, -⟩ := h.save_error hsave
      exact h
    | none =>
      obtain ⟨-, -, data, hdata, -, hstep⟩ := h.save_ok hsave
      exact hstep (hback text rfl data hdata)

theorem afterAll (h : InStep d l path e s) {calls : List Call}
    (hback : ∀ text, .save text ∈ calls →
      ∀ data, e.encode text = .ok data → e.decode data = .ok text) :
    InStep d l path e (Call.afterAll calls s) := by
  refine List.foldlRecOn (motive := InStep d l path e) calls _ h fun s hs call hcall => ?_
  exact hs.after call fun text htext => hback text (htext ▸ hcall)

end InStep

/-- Whatever is saved and reloaded, the text of a file is what its contents decode to, and no other
file is touched. Just a text that can be encoded is saved, and only to a file that may be written
to. A save that fails changes nothing. -/
theorem saves_keep_in_step {library : Bytes → Multibyte} {name : Bytes} {e : Encoding}
    (hname : Encoding.ofName name library = .ok e) (hsingle : e.codec.isMultibyte = false)
    {d : Disk} {path : Bytes} {f : SourceFile} (hload : load d path e = .ok f)
    {calls : List Call} (hvalid : ∀ text, .save text ∈ calls → Utf8.valid text = true) :
    let s := Call.afterAll calls (f, d)
    ∃ l, d.fileAt? path = some l ∧ Disk.Within (· = l) d s.2 ∧
      (∃ data, s.2.read path = .ok data ∧ e.decode data = .ok s.1.text) ∧
      Call.reload.perform s = (s, none) ∧
      ∀ text,
        ((∃ s', (Call.save text).perform s = (s', none)) ↔
          (∃ data, e.encode text = .ok data) ∧ d.tree.permits l Mode.writable = true) ∧
        (∀ s', (Call.save text).perform s = (s', none) →
          s'.1.text = text ∧ ∃ data, e.encode text = .ok data ∧ s'.2.read path = .ok data) ∧
        (∀ s' x, (Call.save text).perform s = (s', some x) → s' = s) ∧
        ∀ x, e.encode text = .error x →
          (Call.save text).perform s = (s, some (.within path x)) := by
  intro s
  obtain ⟨l, hstart⟩ := InStep.start hload
  have hstep : InStep d l path e s := hstart.afterAll fun text htext =>
    (Encoding.read_back hname hsingle (hvalid text htext)).1
  refine ⟨l, hstep.place, hstep.within, hstep.read, hstep.reload,
    fun text => ⟨⟨?_, ?_⟩, ?_, ?_, ?_⟩⟩
  · rintro ⟨s', hsave⟩
    obtain ⟨hwritable, -, data, hdata, -⟩ := hstep.save_ok hsave
    exact ⟨⟨data, hdata⟩, hwritable⟩
  · rintro ⟨⟨data, hdata⟩, hwritable⟩
    rcases hsave : (Call.save text).perform s with ⟨s', x?⟩
    cases x? with
    | none => exact ⟨s', rfl⟩
    | some x =>
      rcases (hstep.save_error hsave).2 with ⟨y, hy⟩ | hdenied
      · simp [hdata] at hy
      · simp [hwritable] at hdenied
  · intro s' hsave
    obtain ⟨-, htext, data, hdata, hread, -⟩ := hstep.save_ok hsave
    exact ⟨htext, data, hdata, hread⟩
  · exact fun s' x hsave => (hstep.save_error hsave).1
  · exact fun x => hstep.save_unencodable

/-- Latin-1 has no euro sign, so the second save is refused, and what the first one wrote stays. -/
theorem saves_keep_in_step_latin1 :
    let latin1 : Encoding := ⟨bytes "latin1", .page .iso8859_1⟩
    let d : Disk := ⟨Tree.empty.set [bytes "a.js"] (.file .ofFile (bytes "a")), [], 0⟩
    let f : SourceFile := ⟨bytes "a.js", bytes "a", latin1, .ofFile⟩
    let calls : List Call := [.save (bytes "é"), .save (bytes "€"), .reload]
    load d (bytes "a.js") latin1 = .ok f ∧ (Call.afterAll calls (f, d)).1.text = bytes "é" ∧
      ∃ data, (Call.afterAll calls (f, d)).2.read (bytes "a.js") = .ok data ∧
        latin1.decode data = .ok (Call.afterAll calls (f, d)).1.text := by
  intro latin1 d f calls
  have hname : Encoding.ofName (bytes "latin1") = .ok latin1 :=
    Encoding.ofName_of_findIdx? (i := 18) (by decide +kernel) (by decide +kernel)
      (by decide +kernel) rfl (by simp) _
  have hload : load d (bytes "a.js") latin1 = .ok f :=
    load_eq_ok.mpr ⟨[bytes "a.js"], .ofFile, bytes "a", by decide +kernel, by decide,
      by decide +kernel, rfl⟩
  have hvalid : ∀ text, .save text ∈ calls → Utf8.valid text = true := by
    intro text htext
    obtain rfl | rfl : text = bytes "é" ∨ text = bytes "€" := by simpa [calls] using htext
    all_goals decide +kernel
  have htext : (Call.afterAll calls (f, d)).1.text = bytes "é" := by decide +kernel
  obtain ⟨-, -, -, hread, -⟩ := saves_keep_in_step hname rfl hload hvalid
  exact ⟨hload, htext, hread⟩

end SourceFile

end Restyler
