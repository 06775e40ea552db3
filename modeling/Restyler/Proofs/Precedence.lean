import Restyler.Cli.Command
import Restyler.Proofs.Codecs
import Restyler.Proofs.Disk
import Restyler.Proofs.Path

/-!
# Where settings come from

A setting is what its flag says if that is given, else what the settings file gives it, else the
standard one. The file is the one that the invocation names, or else the nearest. It must be valid
on its own, whatever the flags say, and the settings that come out are valid once more; so nothing
that is made of them later can fail.
-/

namespace Restyler

-- --------------------------------------------------------------------
-- Valid settings

namespace Settings

structure Valid (s : Settings) : Prop where
  indent : 1 ≤ s.indent ∧ s.indent ≤ 16
  extensions : s.extensions ≠ []
  dotted : ∀ e ∈ s.extensions, ∃ name, name ≠ [] ∧ e = Byte.dot :: name
  encoding : ∃ encoding, Encoding.ofName s.encoding = .ok encoding

theorem isExtension_iff {e : Bytes} :
    isExtension e = true ↔ ∃ name, name ≠ [] ∧ e = Byte.dot :: name := by
  have hdot : bytes "." = [Byte.dot] := rfl
  rw [isExtension, hdot]
  match e with
  | [] | [_] => simp
  | b :: c :: name => simpa using eq_comm

theorem validate_ok {s : Settings} : s.validate = .ok () ↔ s.Valid := by
  have hmax : (Failure.maxIndent : Int) = 16 := rfl
  unfold validate
  rw [hmax]
  split
  · next h =>
    refine ⟨nofun, fun hs => ?_⟩
    have := hs.indent
    omega
  next hindent =>
  split
  · next h => exact ⟨nofun, fun hs => absurd h hs.extensions⟩
  next hextensions =>
  split
  · next e he =>
    obtain ⟨hmem, hform⟩ : e ∈ s.extensions ∧ isExtension e = false :=
      ⟨List.mem_of_find?_eq_some he, by simpa using List.find?_some he⟩
    refine ⟨nofun, fun hs => ?_⟩
    simp [isExtension_iff.mpr (hs.dotted e hmem)] at hform
  next hdotted =>
  have hdotted : ∀ e ∈ s.extensions, ∃ name, name ≠ [] ∧ e = Byte.dot :: name := by
    simpa [isExtension_iff] using hdotted
  split
  · next encoding hencoding =>
    exact ⟨fun _ => ⟨by omega, hextensions, hdotted, encoding, hencoding⟩, fun _ => rfl⟩
  · next f hf =>
    refine ⟨nofun, fun hs => ?_⟩
    obtain ⟨encoding, hencoding⟩ := hs.encoding
    simp [hencoding] at hf

namespace Valid

variable {s : Settings}

/-- A valid indentation is a word of any size that a machine has. -/
theorem indentWidth (h : s.Valid) {bits : Nat} (hbits : 8 ≤ bits) :
    s.indentWidth bits = .ok s.indent := by
  have hpow : 2 ^ 8 ≤ 2 ^ bits := Nat.pow_le_pow_right (by decide) hbits
  have hword : (BitVec.ofInt bits s.indent).toInt = s.indent := by
    have := h.indent
    rw [BitVec.toInt_ofInt]
    exact Int.bmod_eq_of_le (by omega) (by omega)
  simp [Settings.indentWidth, hword]

theorem ofName (h : s.Valid) (library : Bytes → Multibyte) :
    ∃ encoding, Encoding.ofName s.encoding library = .ok encoding := by
  obtain ⟨encoding, hencoding⟩ := h.encoding
  exact Encoding.exists_ofName hencoding library

theorem unit (h : s.Valid) :
    (Pipeline.ofWidth s.indent).unit = List.replicate s.indent.toNat Byte.space := by
  have := h.indent
  rw [Pipeline.ofWidth, if_neg (by omega)]

end Valid

-- --------------------------------------------------------------------
-- What a document gives

/-- A setting that a document can give: the field for it, its value in settings, and how a value is
written. -/
structure Setting (α : Type) where
  field : Field
  get : Settings → α
  written : α → Toml.Value → Prop

namespace Setting

def indent : Setting Int := ⟨.indent, Settings.indent, fun n v => v = .integer n⟩

def encoding : Setting Bytes := ⟨.encoding, Settings.encoding, fun e v => v = .string e⟩

def extensions : Setting (List Bytes) :=
  ⟨.extensions, Settings.extensions, fun es v => ∃ vs, v = .array vs ∧
    vs.toList = es.map Toml.Value.string⟩

/-- Some entry gives the setting a value, under one of its names. -/
def GivenBy {α : Type} (x : Setting α) (entries : List (Toml.Key × Toml.Entry)) (a : α) : Prop :=
  ∃ k v, (k, .leaf v) ∈ entries ∧ Field.ofKey? k = some x.field ∧ x.written a v

/-- Setting the field sets the value as it is written, and setting another one leaves it. -/
structure Lawful {α : Type} (x : Setting α) : Prop where
  same : ∀ s e s', x.field.set? s e = some s' → ∃ v, e = .leaf v ∧ x.written (x.get s') v
  other : ∀ f s e s', f.set? s e = some s' → f ≠ x.field → x.get s' = x.get s

theorem strings?_eq_some {vs : Toml.Values} {es : List Bytes} (h : strings? vs = some es) :
    vs.toList = es.map Toml.Value.string := by
  fun_induction strings? vs generalizing es with
  | case1 =>
    cases h
    rfl
  | case2 s vs ih =>
    obtain ⟨rest, hrest, rfl⟩ := Option.map_eq_some_iff.mp h
    simp [Toml.Values.toList, ih hrest]
  | case3 => cases h

theorem set?_cases {f : Field} {s s' : Settings} {e : Toml.Entry} (h : f.set? s e = some s') :
    s' = s ∧ (f = .style ∨ f = .files) ∨
      (∃ n, f = .indent ∧ e = .leaf (.integer n) ∧ s' = { s with indent := n }) ∨
      (∃ b, f = .encoding ∧ e = .leaf (.string b) ∧ s' = { s with encoding := b }) ∨
      ∃ vs es, f = .extensions ∧ e = .leaf (.array vs) ∧ vs.toList = es.map Toml.Value.string ∧
        s' = { s with extensions := es } := by
  unfold Field.set? at h
  split at h
  · exact .inl ⟨(Option.some.inj h).symm, .inl rfl⟩
  · exact .inl ⟨(Option.some.inj h).symm, .inr rfl⟩
  · exact .inr (.inl ⟨_, rfl, rfl, (Option.some.inj h).symm⟩)
  · exact .inr (.inr (.inl ⟨_, rfl, rfl, (Option.some.inj h).symm⟩))
  · obtain ⟨es, hes, rfl⟩ := Option.map_eq_some_iff.mp h
    exact .inr (.inr (.inr ⟨_, es, rfl, rfl, strings?_eq_some hes, rfl⟩))
  · cases h

theorem lawful_indent : indent.Lawful where
  same s e s' h := by
    obtain ⟨-, hf | hf⟩ | ⟨n, -, rfl, rfl⟩ | ⟨b, hf, -⟩ | ⟨vs, es, hf, -⟩ := set?_cases h
    case inr.inl => exact ⟨_, rfl, rfl⟩
    all_goals cases hf
  other f s e s' h hne := by
    obtain ⟨rfl, -⟩ | ⟨n, hf, -⟩ | ⟨b, -, -, rfl⟩ | ⟨vs, es, -, -, -, rfl⟩ := set?_cases h
    case inr.inl => exact absurd hf hne
    all_goals rfl

theorem lawful_encoding : encoding.Lawful where
  same s e s' h := by
    obtain ⟨-, hf | hf⟩ | ⟨n, hf, -⟩ | ⟨b, -, rfl, rfl⟩ | ⟨vs, es, hf, -⟩ := set?_cases h
    case inr.inr.inl => exact ⟨_, rfl, rfl⟩
    all_goals cases hf
  other f s e s' h hne := by
    obtain ⟨rfl, -⟩ | ⟨n, -, -, rfl⟩ | ⟨b, hf, -⟩ | ⟨vs, es, -, -, -, rfl⟩ := set?_cases h
    case inr.inr.inl => exact absurd hf hne
    all_goals rfl

theorem lawful_extensions : extensions.Lawful where
  same s e s' h := by
    obtain ⟨-, hf | hf⟩ | ⟨n, hf, -⟩ | ⟨b, hf, -⟩ | ⟨vs, es, -, rfl, hes, rfl⟩ := set?_cases h
    case inr.inr.inr => exact ⟨_, rfl, vs, rfl, hes⟩
    all_goals cases hf
  other f s e s' h hne := by
    obtain ⟨rfl, -⟩ | ⟨n, -, -, rfl⟩ | ⟨b, -, -, rfl⟩ | ⟨vs, es, hf, -⟩ := set?_cases h
    case inr.inr.inr => exact absurd hf hne
    all_goals rfl

end Setting

end Settings

/-- A value with up to three sources: the flag's, else one that is given, else the standard one. -/
def Layered {α : Type} (flag? : Option α) (given : α → Prop) (standard value : α) : Prop :=
  match flag? with
  | some v => value = v
  | none => given value ∨ (∀ v, ¬ given v) ∧ value = standard

namespace Settings

theorem setEntry_ok {s s' : Settings} {entry : Toml.Key × Toml.Entry}
    (h : setEntry s entry = .ok s') :
    Field.ofKey? entry.1 = none ∧ s' = s ∨
      ∃ f, Field.ofKey? entry.1 = some f ∧ f.set? s entry.2 = some s' := by
  unfold setEntry at h
  split at h
  · next hkey =>
    cases h
    exact .inl ⟨hkey, rfl⟩
  · next f hkey =>
    split at h
    · next hset =>
      cases h
      exact .inr ⟨f, hkey, hset⟩
    · cases h

/-- The entries of a document give a setting its value, or leave it. -/
theorem foldlM_setEntry {α : Type} {x : Setting α} (hx : x.Lawful)
    {entries : List (Toml.Key × Toml.Entry)} {s s' : Settings}
    (h : entries.foldlM setEntry s = .ok s') :
    Layered none (x.GivenBy entries) (x.get s) (x.get s') := by
  induction entries generalizing s with
  | nil =>
    cases h
    refine .inr ⟨?_, rfl⟩
    rintro a ⟨k, v, hmem, -⟩
    cases hmem
  | cons entry entries ih =>
    simp only [List.foldlM_cons, bind_ok] at h
    obtain ⟨t, hentry, hrest⟩ := h
    rcases ih hrest with ⟨k, v, hmem, hv⟩ | ⟨hnone, hget⟩
    · exact .inl ⟨k, v, List.mem_cons_of_mem _ hmem, hv⟩
    -- The rest leaves what this entry makes of the setting.
    have hlater (hkey : Field.ofKey? entry.1 ≠ some x.field) :
        ∀ a, ¬ x.GivenBy (entry :: entries) a := by
      rintro a ⟨k, v, hmem, hfield, hv⟩
      rcases List.mem_cons.mp hmem with rfl | hmem
      · exact hkey hfield
      · exact hnone a ⟨k, v, hmem, hfield, hv⟩
    rcases setEntry_ok hentry with ⟨hkey, rfl⟩ | ⟨f, hkey, hset⟩
    · exact .inr ⟨hlater (by simp [hkey]), hget⟩
    by_cases hf : f = x.field
    · subst hf
      obtain ⟨v, he, hv⟩ := hx.same _ _ _ hset
      refine .inl ⟨entry.1, v, ?_, hkey, hget ▸ hv⟩
      rw [← he]
      exact List.mem_cons_self
    · exact .inr ⟨hlater (by simp [hkey, hf]), hget.trans (hx.other f _ _ _ hset hf)⟩

theorem overlay_ok {s s' : Settings} {c : Bytes} (h : s.overlay c = .ok s') :
    ∃ doc, Toml.Document.read c = .ok doc ∧ doc.entries.foldlM setEntry s = .ok s' := by
  unfold overlay at h
  cases hread : Toml.Document.read c with
  | error e => simp [hread, bind, Except.bind] at h
  | ok doc =>
    cases hfold : doc.entries.foldlM setEntry s with
    | error f => simp [hread, hfold, bind, Except.bind] at h
    | ok t =>
      simp only [hread, hfold, bind, Except.bind] at h
      split at h
      · cases h
      split at h
      · cases h
      cases h
      exact ⟨doc, rfl, hfold⟩

theorem within_ok {α : Type} {context : Bytes} {x : Except Failure α} {a : α} :
    within context x = .ok a ↔ x = .ok a := by
  cases x <;> simp [within]

theorem within_error {α : Type} {context : Bytes} {x : Except Failure α} {f : Failure} :
    within context x = .error f ↔ ∃ g, x = .error g ∧ f = .within context g := by
  cases x <;> simp [within, eq_comm]

theorem contents_ok {d : Disk} {path c : Bytes} :
    contents d path = .ok c ↔ d.read path = .ok c := by
  unfold contents
  cases d.read path <;> simp

/-- A file that loads is valid on its own. -/
theorem load_ok {d : Disk} {path : Bytes} {s : Settings} (h : load d path = .ok s) :
    ∃ c s₀, d.read path = .ok c ∧ standard.overlay c = .ok s₀ ∧ s = { s₀ with path := path } ∧
      s.Valid := by
  rw [load, within_ok] at h
  simp only [bind_ok, contents_ok] at h
  obtain ⟨c, hc, s₀, hs₀, _, hvalid, h⟩ := h
  cases h
  exact ⟨c, s₀, hc, hs₀, rfl, validate_ok.mp hvalid⟩

theorem load_error {d : Disk} {path : Bytes} {f : Failure} (h : load d path = .error f) :
    ∃ g, f = .within path g := by
  obtain ⟨g, -, hf⟩ := within_error.mp h
  exact ⟨g, hf⟩

-- --------------------------------------------------------------------
-- The nearest file

/-- Nothing stands at the path of a settings file in a directory. -/
def Lacks (d : Disk) (directory : Location) : Prop :=
  ∃ e, d.stat (candidate directory) = .error e ∧ e.errno = .noEntry

/-- The settings file in the lowest directory at or above a place that has one. -/
def IsNearest (d : Disk) (place : Location) : Option Bytes → Prop
  | some path => ∃ l n, l <+: place ∧ path = candidate l ∧ d.stat path = .ok n ∧
      ∀ k, k <+: place → l.length < k.length → Lacks d k
  | none => ∀ l, l <+: place → Lacks d l

/-- The search stops at the first directory that has something to say. -/
theorem searchIn_append {d : Disk} {nearer : List Location} (h : ∀ k ∈ nearer, Lacks d k)
    (rest : List Location) : searchIn d (nearer ++ rest) = searchIn d rest := by
  induction nearer with
  | nil => rfl
  | cons k nearer ih =>
    obtain ⟨e, hstat, he⟩ := h k List.mem_cons_self
    rw [List.cons_append, searchIn, hstat]
    simp [he, ih fun k hk => h k (List.mem_cons_of_mem _ hk)]

theorem searchIn_ok {d : Disk} {ls : List Location} {r : Option Bytes}
    (h : searchIn d ls = .ok r) :
    (r = none ∧ ∀ l ∈ ls, Lacks d l) ∨
      ∃ nearer l farther n, ls = nearer ++ l :: farther ∧ (∀ k ∈ nearer, Lacks d k) ∧
        r = some (candidate l) ∧ d.stat (candidate l) = .ok n := by
  induction ls with
  | nil =>
    cases h
    exact .inl ⟨rfl, nofun⟩
  | cons l ls ih =>
    rw [searchIn] at h
    split at h
    · next n hstat =>
      cases h
      exact .inr ⟨[], l, ls, n, rfl, nofun, rfl, hstat⟩
    next e hstat =>
    split at h
    · next he =>
      have hl : Lacks d l := ⟨e, hstat, he⟩
      rcases ih h with ⟨hr, hls⟩ | ⟨nearer, k, farther, n, rfl, hnearer, hk⟩
      · exact .inl ⟨hr, List.forall_mem_cons.mpr ⟨hl, hls⟩⟩
      · exact .inr ⟨l :: nearer, k, farther, n, rfl, List.forall_mem_cons.mpr ⟨hl, hnearer⟩, hk⟩
    · cases h

theorem searchIn_error {d : Disk} {ls : List Location} {f : Failure}
    (h : searchIn d ls = .error f) : ∃ context g, f = .within context g := by
  induction ls with
  | nil => cases h
  | cons l ls ih =>
    rw [searchIn] at h
    split at h
    · cases h
    split at h
    · exact ih h
    · cases h
      exact ⟨_, _, rfl⟩

theorem searchIn_ancestors {d : Disk} {place : Location} {r : Option Bytes} :
    searchIn d (Path.ancestors place) = .ok r ↔ IsNearest d place r := by
  have hsorted := Path.ancestors_pairwise place
  constructor
  · intro h
    rcases searchIn_ok h with ⟨rfl, hlacks⟩ | ⟨nearer, l, farther, n, hsplit, hlacks, rfl, hstat⟩
    · exact fun l hl => hlacks l (Path.mem_ancestors.mpr hl)
    have hl : l <+: place := Path.mem_ancestors.mp (by simp [hsplit])
    refine ⟨l, n, hl, rfl, hstat, fun k hk hlonger => ?_⟩
    -- A longer place comes earlier in the list.
    have hmem : k ∈ nearer ++ l :: farther := hsplit ▸ Path.mem_ancestors.mpr hk
    rw [hsplit, List.pairwise_append, List.pairwise_cons] at hsorted
    rcases List.mem_append.mp hmem with hk | hk
    · exact hlacks k hk
    rcases List.mem_cons.mp hk with rfl | hk
    · exact absurd hlonger (Nat.lt_irrefl _)
    · exact absurd hlonger (Nat.lt_asymm (hsorted.2.1.1 k hk))
  · cases r with
    | none =>
      intro hlacks
      have := searchIn_append (fun k hk => hlacks k (Path.mem_ancestors.mp hk)) []
      rwa [List.append_nil] at this
    | some path =>
      rintro ⟨l, n, hl, rfl, hstat, hlacks⟩
      obtain ⟨nearer, farther, hsplit⟩ := List.append_of_mem (Path.mem_ancestors.mpr hl)
      rw [hsplit, List.pairwise_append] at hsorted
      have hnearer : ∀ k ∈ nearer, Lacks d k := fun k hk =>
        hlacks k (Path.mem_ancestors.mp (by simp [hsplit, hk]))
          (hsorted.2.2 k hk l List.mem_cons_self)
      rw [hsplit, searchIn_append hnearer, searchIn, hstat]

theorem find_error {d : Disk} {start : Bytes} {f : Failure} (h : find d start = .error f) :
    ∃ context g, f = .within context g := by
  unfold find at h
  simp only at h
  generalize d.absolute (if start = [] then Path.here else start) = directory at h
  cases directory with
  | error x =>
    cases h
    exact ⟨_, _, rfl⟩
  | ok directory => exact searchIn_error h

theorem find_workingPath {d : Disk} (hcwd : ∀ name ∈ d.cwd, Path.IsName name) :
    find d d.workingPath = searchIn d (Path.ancestors d.cwd) := by
  have hne : d.workingPath ≠ [] := List.cons_ne_nil _ _
  have habsolute : d.absolute d.workingPath = .ok d.workingPath := by
    rw [Disk.absolute, Disk.workingPath, Path.isAbsolute_ofNames, if_pos rfl,
      Path.clean_ofNames hcwd]
  rw [find]
  simp only [if_neg hne, habsolute, within, bind, Except.bind]
  rw [Disk.workingPath, Path.names_ofNames hcwd]

end Settings

-- --------------------------------------------------------------------
-- The settings of an invocation

namespace Cli

open Settings (Setting)

variable {library : Library} {d : Disk} {i : Invocation}

/-- The settings file that counts, if there is one: the one that is named, else the nearest. From a
working directory that was removed there is no way to it. -/
def Chosen (d : Disk) (i : Invocation) (file? : Option Bytes) : Prop :=
  if i.config ≠ [] then file? = some i.config
  else d.lost = 0 ∧ Settings.IsNearest d d.cwd file?

/-- The file gives the setting a value. -/
def Given (d : Disk) (file? : Option Bytes) {α : Type} (x : Setting α) (a : α) : Prop :=
  ∃ path ∈ file?, ∃ c doc, d.read path = .ok c ∧ Toml.Document.read c = .ok doc ∧
    x.GivenBy doc.entries a

/-- Each of the settings is its flag's, else the file's, else the standard one. Extensions have no
flag. -/
structure Drawn (d : Disk) (file? : Option Bytes) (indent? : Option Int) (encoding? : Option Bytes)
    (s : Settings) : Prop where
  indent : Layered indent? (Given d file? .indent) 2 s.indent
  encoding : Layered encoding? (Given d file? .encoding) (bytes "utf-8") s.encoding
  extensions : Layered none (Given d file? .extensions) [bytes ".js"] s.extensions

theorem drawn_standard (d : Disk) : Drawn d none none none Settings.standard where
  indent := .inr ⟨fun _ ⟨_, h, _⟩ => absurd h nofun, rfl⟩
  encoding := .inr ⟨fun _ ⟨_, h, _⟩ => absurd h nofun, rfl⟩
  extensions := .inr ⟨fun _ ⟨_, h, _⟩ => absurd h nofun, rfl⟩

theorem given_iff {α : Type} {x : Setting α} {path c : Bytes} {doc : Toml.Document}
    (hc : d.read path = .ok c) (hdoc : Toml.Document.read c = .ok doc) {a : α} :
    Given d (some path) x a ↔ x.GivenBy doc.entries a := by
  simp [Given, hc, hdoc]

theorem drawn_of_load {path : Bytes} {s : Settings} (h : Settings.load d path = .ok s) :
    Drawn d (some path) none none s ∧ s.Valid := by
  obtain ⟨c, s₀, hc, hoverlay, rfl, hvalid⟩ := Settings.load_ok h
  obtain ⟨doc, hdoc, hfold⟩ := Settings.overlay_ok hoverlay
  have hlayer {α : Type} {x : Setting α} (hx : x.Lawful) :
      Layered none (Given d (some path) x) (x.get .standard) (x.get s₀) := by
    simpa [Layered, given_iff hc hdoc] using Settings.foldlM_setEntry hx hfold
  exact ⟨⟨hlayer Setting.lawful_indent, hlayer Setting.lawful_encoding,
    hlayer Setting.lawful_extensions⟩, hvalid⟩

theorem Drawn.override {file? : Option Bytes} {s : Settings} (h : Drawn d file? none none s)
    (indent? : Option Int) (encoding? : Option Bytes) :
    Drawn d file? indent? encoding?
      { s with indent := indent?.getD s.indent, encoding := encoding?.getD s.encoding } where
  indent := by
    cases indent? with
    | none => exact h.indent
    | some n => rfl
  encoding := by
    cases encoding? with
    | none => exact h.encoding
    | some e => rfl
  extensions := h.extensions

theorem chosen_iff (hcwd : ∀ name ∈ d.cwd, Path.IsName name) {file? : Option Bytes} :
    Chosen d i file? ↔ if i.config ≠ [] then file? = some i.config
      else d.lost = 0 ∧ Settings.find d d.workingPath = .ok file? := by
  rw [Chosen, Settings.find_workingPath hcwd, Settings.searchIn_ancestors]

theorem discover_notFound {start : Bytes} :
    Settings.discover d start = .error .settingsNotFound ↔ Settings.find d start = .ok none := by
  rw [Settings.discover]
  cases hfind : Settings.find d start with
  | error f =>
    obtain ⟨context, g, rfl⟩ := Settings.find_error hfind
    simp [bind, Except.bind]
  | ok file? =>
    cases file? with
    | none => simp [bind, Except.bind]
    | some path =>
      refine ⟨fun hload => ?_, nofun⟩
      obtain ⟨g, hg⟩ := Settings.load_error hload
      cases hg

theorem discover_some {start path : Bytes} (h : Settings.find d start = .ok (some path)) :
    Settings.discover d start = Settings.load d path := by
  simp [Settings.discover, h, bind, Except.bind]

theorem getwd_ok {p : Bytes} : d.getwd = .ok p ↔ d.lost = 0 ∧ p = d.workingPath := by
  unfold Disk.getwd
  split
  · next hlost => simp [hlost, eq_comm]
  · next hlost => simp [hlost]

theorem baseSettings_of_lost (hconfig : ¬ i.config ≠ []) (hlost : d.lost = 0) :
    baseSettings d i =
      match Settings.discover d d.workingPath with
      | .error .settingsNotFound => .ok Settings.standard
      | other => other := by
  rw [baseSettings, if_neg hconfig, getwd_ok.mpr ⟨hlost, rfl⟩]
  rfl

theorem baseSettings_some (hcwd : ∀ name ∈ d.cwd, Path.IsName name) {path : Bytes}
    (h : Chosen d i (some path)) : baseSettings d i = Settings.load d path := by
  rw [chosen_iff hcwd] at h
  split at h
  · next hconfig => rw [baseSettings, if_pos hconfig, Option.some.inj h]
  · next hconfig =>
    obtain ⟨hlost, hfind⟩ := h
    rw [baseSettings_of_lost hconfig hlost]
    split
    · next hfound =>
      rw [discover_notFound, hfind] at hfound
      cases hfound
    · exact discover_some hfind

theorem baseSettings_ok (hcwd : ∀ name ∈ d.cwd, Path.IsName name) {s : Settings}
    (h : baseSettings d i = .ok s) :
    ∃ file?, Chosen d i file? ∧ Drawn d file? none none s ∧ s.Valid := by
  have hnamed {path : Bytes} (hchosen : Chosen d i (some path)) :
      Drawn d (some path) none none s ∧ s.Valid :=
    drawn_of_load (baseSettings_some hcwd hchosen ▸ h)
  by_cases hconfig : i.config ≠ []
  · have hchosen : Chosen d i (some i.config) := by rw [Chosen, if_pos hconfig]
    exact ⟨_, hchosen, hnamed hchosen⟩
  have hlost : d.lost = 0 := by
    rw [baseSettings, if_neg hconfig, bind_ok] at h
    obtain ⟨directory, hdirectory, -⟩ := h
    exact (getwd_ok.mp (Settings.within_ok.mp hdirectory)).1
  have hchosen : ∀ file?, Settings.find d d.workingPath = .ok file? → Chosen d i file? := by
    intro file? hfind
    rw [chosen_iff hcwd, if_neg hconfig]
    exact ⟨hlost, hfind⟩
  rw [baseSettings_of_lost hconfig hlost] at h
  split at h
  · next hnone =>
    cases h
    exact ⟨none, hchosen none (discover_notFound.mp hnone), drawn_standard d,
      Settings.validate_ok.mp rfl⟩
  · rw [Settings.discover, bind_ok] at h
    obtain ⟨file?, hfind, h⟩ := h
    cases file? with
    | none => cases h
    | some path => exact ⟨_, hchosen _ hfind, hnamed (hchosen _ hfind)⟩

theorem settings_ok {s : Settings} (h : settings d i = .ok s) :
    s.Valid ∧ ∃ own, baseSettings d i = .ok own ∧
      s = { own with indent := i.indent.getD own.indent,
                     encoding := i.encoding.getD own.encoding } := by
  rw [settings, bind_ok] at h
  obtain ⟨own, hown, h⟩ := h
  rw [bind_ok] at h
  obtain ⟨_, hvalid, h⟩ := h
  cases h
  exact ⟨Settings.validate_ok.mp (Settings.within_ok.mp hvalid), own, hown, rfl⟩

@[simp] theorem mapError_of_ok {ε ε' α : Type} (f : ε → ε') (a : α) :
    (Except.ok a : Except ε α).mapError f = .ok a := rfl

@[simp] theorem mapError_of_error {ε ε' α : Type} (f : ε → ε') (e : ε) :
    (Except.error e : Except ε α).mapError f = .error (f e) := rfl

theorem mapError_ok {ε ε' α : Type} {f : ε → ε'} {x : Except ε α} {a : α} :
    x.mapError f = .ok a ↔ x = .ok a := by
  cases x <;> simp

/-- What it takes to get ready. -/
structure Ready (library : Library) (d : Disk) (i : Invocation) (x : Setup) : Prop where
  modes : (i.dryRun && i.check) = false
  style : ∃ colour, Cli.colour i = .ok colour ∧ x.style = ⟨i.check, i.quiet, colour⟩
  settings : Cli.settings d i = .ok x.settings
  width : x.settings.indentWidth Settings.wordBits = .ok x.width
  encoding : Encoding.ofName x.settings.encoding library.multibyte = .ok x.encoding
  tracing : Cli.tracing d i = .ok (x.tracer, x.sink, x.disk)

theorem prepare_ok {x : Setup} : prepare library d i = .ok x ↔ Ready library d i x := by
  unfold prepare
  constructor
  · intro h
    split at h
    · cases h
    next hmodes =>
    simp only [bind_ok, mapError_ok] at h
    obtain ⟨colour, hcolour, settings, hsettings, width, hwidth, encoding, hencoding,
      ⟨tracer, sink, disk⟩, htracing, h⟩ := h
    cases h
    exact ⟨by simpa using hmodes, ⟨colour, hcolour, rfl⟩, hsettings, hwidth, hencoding, htracing⟩
  · intro h
    obtain ⟨colour, hcolour, hstyle⟩ := h.style
    simp only [h.modes, hcolour, h.settings, h.width, h.encoding, h.tracing, mapError_of_ok, bind,
      Except.bind, ← hstyle]
    rfl

/-- Once there are settings, only the modes, the colour and the tracing can still be refused. -/
theorem prepare_error {s : Settings} {c : Complaint} (hs : settings d i = .ok s)
    (h : prepare library d i = .error c) :
    c = .exclusiveModes ∨ colour i = .error c ∨ ∃ f, tracing d i = .error f ∧ c = .failure f := by
  have hvalid := (settings_ok hs).1
  have hwidth : s.indentWidth Settings.wordBits = .ok s.indent := hvalid.indentWidth (by decide)
  obtain ⟨encoding, hencoding⟩ := hvalid.ofName library.multibyte
  unfold prepare at h
  split at h
  · cases h
    exact .inl rfl
  cases hcolour : colour i with
  | error c' =>
    rw [hcolour] at h
    cases h
    exact .inr (.inl rfl)
  | ok _ =>
    simp only [hcolour, hs, hwidth, hencoding, mapError_of_ok, bind, Except.bind] at h
    cases htracing : tracing d i with
    | ok t =>
      rw [htracing] at h
      cases h
    | error f =>
      rw [htracing] at h
      cases h
      exact .inr (.inr ⟨f, rfl, rfl⟩)

theorem Ready.unit {x : Setup} (h : Ready library d i x) :
    x.width = x.settings.indent ∧ 0 < x.width ∧
      (x.job i).options.pipeline.unit = List.replicate x.settings.indent.toNat Byte.space := by
  have hvalid := (settings_ok h.settings).1
  have hwidth : x.width = x.settings.indent :=
    Except.ok.inj (h.width.symm.trans (hvalid.indentWidth (by decide)))
  have := hvalid.indent
  refine ⟨hwidth, by omega, ?_⟩
  rw [Setup.job, hwidth]
  exact hvalid.unit

theorem chosen_unique (hcwd : ∀ name ∈ d.cwd, Path.IsName name) {file? other? : Option Bytes}
    (h : Chosen d i file?) (h' : Chosen d i other?) : other? = file? := by
  rw [chosen_iff hcwd] at h h'
  split at h
  · rw [if_pos ‹_›] at h'
    rw [h, h']
  · rw [if_neg ‹_›, h.2] at h'
    exact (Except.ok.inj h'.2).symm

/-- What settings that come out are: drawn from the layers in their order, over a file that is valid
without the flags, and enough for all that is made of them. -/
structure Settled (d : Disk) (i : Invocation) (s : Settings) : Prop where
  chosen : ∃ file?, Chosen d i file?
  drawn : ∀ file?, Chosen d i file? → Drawn d file? i.indent i.encoding s
  own : ∀ file?, Chosen d i file? → ∃ own : Settings, Drawn d file? none none own ∧ own.Valid
  indentWidth : ∀ bits, 8 ≤ bits → s.indentWidth bits = .ok s.indent
  encoding : ∀ library, ∃ encoding, Encoding.ofName s.encoding library = .ok encoding
  unit : ∀ library x, prepare library d i = .ok x →
    x.settings = s ∧ x.width = s.indent ∧ 0 < x.width ∧
      (x.job i).options.pipeline.unit = List.replicate s.indent.toNat Byte.space
  refused : ∀ library c, prepare library d i = .error c →
    c = .exclusiveModes ∨ colour i = .error c ∨ ∃ f, tracing d i = .error f ∧ c = .failure f

/-- Flags come before the settings file and that before the standard settings, while a file that
does not load is a failure, with whatever flags. -/
theorem settings_layered (hcwd : ∀ name ∈ d.cwd, Path.IsName name) :
    (∀ s, settings d i = .ok s → Settled d i s) ∧
      ∀ path f, Chosen d i (some path) → Settings.load d path = .error f →
        ∀ indent encoding,
          settings d { i with indent := indent, encoding := encoding } = .error f := by
  refine ⟨fun s hs => ?_, fun path f hchosen hload indent encoding => ?_⟩
  · obtain ⟨hvalid, own, hown, rfl⟩ := settings_ok hs
    obtain ⟨file?, hchosen, hdrawn, hownValid⟩ := baseSettings_ok hcwd hown
    refine ⟨⟨file?, hchosen⟩, fun other? hother => ?_, fun other? hother => ?_,
      fun bits => hvalid.indentWidth, hvalid.ofName, fun library x hx => ?_,
      fun library c => prepare_error hs⟩
    · exact chosen_unique hcwd hchosen hother ▸ hdrawn.override i.indent i.encoding
    · exact ⟨own, chosen_unique hcwd hchosen hother ▸ hdrawn, hownValid⟩
    · have hready := prepare_ok.mp hx
      have hsettings := Except.ok.inj (hready.settings.symm.trans hs)
      exact ⟨hsettings, hsettings ▸ hready.unit⟩
  · -- The flags that override settings have no say in which file is read.
    have hbase : baseSettings d { i with indent := indent, encoding := encoding } =
        Settings.load d path := baseSettings_some hcwd hchosen
    simp [settings, hbase, hload, bind, Except.bind]

instance decidableEqExcept {ε α : Type} [DecidableEq ε] [DecidableEq α] : DecidableEq (Except ε α)
  | .ok a, .ok b => decidable_of_iff (a = b) (by simp)
  | .error e, .error f => decidable_of_iff (e = f) (by simp)
  | .ok _, .error _ => isFalse nofun
  | .error _, .ok _ => isFalse nofun

/-- The directory `/p/q`, with a settings file in `/p`. -/
def projectDisk (content : Bytes) : Disk :=
  { tree := ((Tree.empty.makeDirs [bytes "p", bytes "q"]).set
      [bytes "p", Settings.fileName] (.file .ofFile content))
    cwd := [bytes "p", bytes "q"] }

/-- The file from above gives the indentation and a flag the encoding. An indentation of forty in
the file is refused, though a flag gives another. -/
theorem settings_layered_above :
    let flags : Invocation := { Invocation.empty with encoding := some (bytes "latin1") }
    let s : Settings := ⟨bytes "/p/jsrestyle.toml", 4, bytes "latin1", [bytes ".js"]⟩
    let d := projectDisk (bytes "[style]\nindent = 4\n")
    let bad := projectDisk (bytes "[style]\nindent = 40\n")
    settings d flags = .ok s ∧ Settled d flags s ∧
      settings bad { flags with indent := some 4 } =
        .error (.within (bytes "/p/jsrestyle.toml") (.indentRange 40)) := by
  intro flags s d bad
  have hcwd : ∀ name ∈ [bytes "p", bytes "q"], Path.IsName name := by decide +kernel
  have hs : settings d flags = .ok s := by decide +kernel
  have hchosen : Chosen bad flags (some (bytes "/p/jsrestyle.toml")) :=
    (chosen_iff hcwd).mpr (by decide +kernel)
  have hload : Settings.load bad (bytes "/p/jsrestyle.toml") =
      .error (.within (bytes "/p/jsrestyle.toml") (.indentRange 40)) := by decide +kernel
  exact ⟨hs, (settings_layered hcwd).1 s hs,
    (settings_layered hcwd).2 _ _ hchosen hload (some 4) flags.encoding⟩

end Cli

end Restyler
