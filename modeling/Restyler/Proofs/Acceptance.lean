import Restyler.Proofs.Adding
import Restyler.Proofs.Precedence

/-!
# Which documents are accepted

A settings file loads exactly if all that its document holds is known and of the right kind, its
encoding is not blank under its exact name, and the settings that come out are valid. What comes out
is determined by what the document holds, if it spells each field in one way, and not by the order.
-/

namespace Restyler

/-- What two names have in common that differ only in case. -/
def Text.folded (s : Bytes) : List Char := (Utf8.chars s).map Text.foldChar

theorem Text.sameFold_iff {s t : Bytes} :
    Text.sameFold s t = true ↔ Text.folded s = Text.folded t := by
  simp [Text.sameFold, Text.folded]

namespace Settings

-- --------------------------------------------------------------------
-- What a field takes

/-- The entries that a field takes. -/
inductive Field.Takes : Field → Toml.Entry → Prop
  | style : Takes .style .table
  | files : Takes .files .table
  | indent (n : Int) : Takes .indent (.leaf (.integer n))
  | encoding (e : Bytes) : Takes .encoding (.leaf (.string e))
  | extensions (vs : Toml.Values) (es : List Bytes) (h : vs.toList = es.map Toml.Value.string) :
    Takes .extensions (.leaf (.array vs))

theorem strings?_of_toList {vs : Toml.Values} {es : List Bytes}
    (h : vs.toList = es.map Toml.Value.string) : strings? vs = some es := by
  induction es generalizing vs with
  | nil =>
    cases vs with
    | nil => rfl
    | cons v vs => cases h
  | cons e es ih =>
    cases vs with
    | nil => cases h
    | cons v vs =>
      obtain ⟨rfl, hvs⟩ := List.cons.inj h
      rw [strings?, ih hvs, Option.map_some]

theorem Field.takes_iff {f : Field} {e : Toml.Entry} (s : Settings) :
    f.Takes e ↔ ∃ s', f.set? s e = some s' := by
  constructor
  · rintro (_ | _ | n | e | ⟨vs, es, h⟩)
    case extensions => exact ⟨{ s with extensions := es }, by simp [set?, strings?_of_toList h]⟩
    all_goals exact ⟨_, rfl⟩
  · rintro ⟨s', h⟩
    unfold set? at h
    split at h
    · exact .style
    · exact .files
    · exact .indent _
    · exact .encoding _
    · obtain ⟨es, hes, -⟩ := Option.map_eq_some_iff.mp h
      exact .extensions _ es (Setting.strings?_eq_some hes)
    · cases h

/-- The key names a field, which takes the entry. -/
def Fits (k : Toml.Key) (e : Toml.Entry) : Prop := ∃ f, Field.ofKey? k = some f ∧ f.Takes e

/-- The parts of the key under which a field is documented. -/
def Field.key : Field → Toml.Key
  | .style => [bytes "style"]
  | .indent => [bytes "style", bytes "indent"]
  | .files => [bytes "files"]
  | .encoding => [bytes "files", bytes "encoding"]
  | .extensions => [bytes "files", bytes "extensions"]

theorem ofKey?_eq_some_iff {k : Toml.Key} {f : Field} :
    Field.ofKey? k = some f ↔ k.map Text.folded = f.key.map Text.folded := by
  have htables : Text.folded (bytes "style") ≠ Text.folded (bytes "files") := by decide +kernel
  have hnames : Text.folded (bytes "encoding") ≠ Text.folded (bytes "extensions") := by
    decide +kernel
  match k with
  | [] => cases f <;> simp [Field.ofKey?, Field.key]
  | [table] =>
    simp only [Field.ofKey?, Text.sameFold_iff]
    cases f <;> grind [Field.key]
  | [table, name] =>
    simp only [Field.ofKey?, Text.sameFold_iff]
    cases f <;> grind [Field.key]
  | _ :: _ :: _ :: _ => cases f <;> simp [Field.ofKey?, Field.key]

theorem named_of_ofKey? {k : Toml.Key} {f : Field} (h : Field.ofKey? k = some f) : k.Named := by
  intro hlast
  have hmap := congrArg List.getLast? (ofKey?_eq_some_iff.mp h)
  rw [List.getLast?_map, List.getLast?_map] at hmap
  cases hk : k.getLast? with
  | none => cases f <;> simp [hk, Field.key] at hmap
  | some last =>
    obtain rfl : last = [] := by simpa [hk] using hlast
    rw [hk] at hmap
    revert hmap
    cases f <;> decide +kernel

/-- Above a field with a name in a table there is that table. -/
theorem fits_of_below {k p : Toml.Key} {f : Field} (h : Field.ofKey? k = some f) (hne : p ≠ [])
    (hp : Toml.Below p k) : Fits p .table := by
  obtain ⟨⟨q, rfl⟩, hq⟩ := hp
  have hmap := ofKey?_eq_some_iff.mp h
  match p, q with
  | [], _ => exact absurd rfl hne
  | _, [] => exact absurd (List.append_nil _) hq
  | [table], name :: q =>
    cases f with
    | indent => exact ⟨.style, ofKey?_eq_some_iff.mpr (by simp_all [Field.key]), .style⟩
    | encoding | extensions =>
      exact ⟨.files, ofKey?_eq_some_iff.mpr (by simp_all [Field.key]), .files⟩
    | style | files => simp [Field.key] at hmap
  | _ :: _ :: _, _ :: _ => cases f <;> simp [Field.key] at hmap

theorem setEntry_isOk {s : Settings} {k : Toml.Key} {e : Toml.Entry} :
    (∃ s', setEntry s (k, e) = .ok s') ↔ ((Field.ofKey? k).isSome → Fits k e) := by
  unfold setEntry Fits
  cases hkey : Field.ofKey? k with
  | none => simp
  | some f =>
    have htakes := f.takes_iff (e := e) s
    cases hset : f.set? s e with
    | none => simp [htakes, hset]
    | some s' => simp [htakes, hset]

theorem foldlM_setEntry_isOk {entries : List Toml.Item} {s : Settings} :
    (∃ s', entries.foldlM setEntry s = .ok s') ↔
      ∀ k e, (k, e) ∈ entries → (Field.ofKey? k).isSome → Fits k e := by
  induction entries generalizing s with
  | nil => simp [pure, Except.pure]
  | cons entry entries ih =>
    obtain ⟨k, e⟩ := entry
    simp only [List.foldlM_cons, bind_ok]
    constructor
    · rintro ⟨s', t, hentry, hrest⟩ k' e' hmem
      rcases List.mem_cons.mp hmem with heq | hmem
      · cases heq
        exact setEntry_isOk.mp ⟨t, hentry⟩
      · exact ih.mp ⟨s', hrest⟩ k' e' hmem
    · intro h
      obtain ⟨t, hentry⟩ := setEntry_isOk.mpr (h k e List.mem_cons_self)
      obtain ⟨s', hrest⟩ := (ih (s := t)).mpr fun k' e' hmem =>
        h k' e' (List.mem_cons_of_mem _ hmem)
      exact ⟨s', t, hentry, hrest⟩

-- --------------------------------------------------------------------
-- What entries say of a setting

/-- No field is given a value under two names. -/
def SpelledOnce (entries : List Toml.Item) : Prop :=
  ∀ k v k' v', (k, .leaf v) ∈ entries → (k', .leaf v') ∈ entries → (Field.ofKey? k).isSome →
    Field.ofKey? k = Field.ofKey? k' → k = k'

/-- No key is given two values. -/
def SingleValued (entries : List Toml.Item) : Prop :=
  ∀ k v v', (k, .leaf v) ∈ entries → (k, .leaf v') ∈ entries → v = v'

/-- Each setting is what the entries give it, or else the standard one. -/
structure Overlaid (entries : List Toml.Item) (s : Settings) : Prop where
  indent : Layered none (Setting.indent.GivenBy entries) standard.indent s.indent
  encoding : Layered none (Setting.encoding.GivenBy entries) standard.encoding s.encoding
  extensions : Layered none (Setting.extensions.GivenBy entries) standard.extensions s.extensions

variable {entries : List Toml.Item} {s t : Settings}

namespace Setting

/-- A value is written in one way, and two values are not written alike. -/
def Faithful {α : Type} (x : Setting α) : Prop := ∀ a b v, x.written a v → x.written b v → a = b

theorem faithful_indent : indent.Faithful := by
  rintro a b v rfl h
  exact Toml.Value.integer.inj h

theorem faithful_encoding : encoding.Faithful := by
  rintro a b v rfl h
  exact Toml.Value.string.inj h

theorem faithful_extensions : extensions.Faithful := by
  rintro a b v ⟨vs, rfl, ha⟩ ⟨vs', hvs, hb⟩
  obtain rfl := Toml.Value.array.inj hvs
  exact (List.map_inj_right fun _ _ => Toml.Value.string.inj).mp (ha.symm.trans hb)

theorem GivenBy.unique {α : Type} {x : Setting α} (hx : x.Faithful) (honce : SpelledOnce entries)
    (hsingle : SingleValued entries) {a b : α} (ha : x.GivenBy entries a)
    (hb : x.GivenBy entries b) : a = b := by
  obtain ⟨k, v, hmem, hfield, hv⟩ := ha
  obtain ⟨k', v', hmem', hfield', hv'⟩ := hb
  obtain rfl : k = k' := honce k v k' v' hmem hmem' (by simp [hfield]) (hfield.trans hfield'.symm)
  exact hx a b v hv (hsingle k v v' hmem hmem' ▸ hv')

end Setting

theorem layered_of_given {α : Type} {given : α → Prop} {standard value a : α}
    (h : Layered none given standard value) (huniq : ∀ a b, given a → given b → a = b)
    (ha : given a) : value = a :=
  h.elim (huniq _ _ · ha) fun hnone => absurd ha (hnone.1 a)

theorem layered_unique {α : Type} {given : α → Prop} {standard a b : α}
    (huniq : ∀ a b, given a → given b → a = b) (ha : Layered none given standard a)
    (hb : Layered none given standard b) : a = b := by
  rcases id hb with hgiven | ⟨hnone, rfl⟩
  · exact layered_of_given ha huniq hgiven
  · rcases ha with hgiven | ⟨-, rfl⟩
    · exact absurd hgiven (hnone a)
    · rfl

/-- An encoding that has a value is the one that comes out. -/
theorem encoding_of_mem (honce : SpelledOnce entries) (hsingle : SingleValued entries)
    (hs : Overlaid entries s) {k : Toml.Key} {e : Bytes} (hmem : (k, .leaf (.string e)) ∈ entries)
    (hfield : Field.ofKey? k = some .encoding) : s.encoding = e :=
  layered_of_given hs.encoding
    (fun _ _ => Setting.GivenBy.unique Setting.faithful_encoding honce hsingle)
    ⟨k, _, hmem, hfield, rfl⟩

theorem Overlaid.unique (honce : SpelledOnce entries) (hsingle : SingleValued entries)
    (hs : Overlaid entries s) (ht : Overlaid entries t) (hpath : s.path = t.path) : s = t := by
  have hindent := layered_unique
    (fun _ _ => Setting.GivenBy.unique Setting.faithful_indent honce hsingle) hs.indent ht.indent
  have hencoding := layered_unique
    (fun _ _ => Setting.GivenBy.unique Setting.faithful_encoding honce hsingle)
    hs.encoding ht.encoding
  have hextensions := layered_unique
    (fun _ _ => Setting.GivenBy.unique Setting.faithful_extensions honce hsingle)
    hs.extensions ht.extensions
  cases s
  cases t
  simp_all

/-- Only keys with values count. -/
theorem givenBy_congr {entries' : List Toml.Item}
    (h : ∀ k v, (k, .leaf v) ∈ entries ↔ (k, .leaf v) ∈ entries') {α : Type} (x : Setting α) :
    x.GivenBy entries = x.GivenBy entries' := by
  funext a
  simp [Setting.GivenBy, h]

theorem overlaid_congr {entries' : List Toml.Item}
    (h : ∀ k v, (k, .leaf v) ∈ entries ↔ (k, .leaf v) ∈ entries') :
    Overlaid entries s ↔ Overlaid entries' s := by
  constructor
  · rintro ⟨hindent, hencoding, hextensions⟩
    rw [givenBy_congr h] at hindent hencoding hextensions
    exact ⟨hindent, hencoding, hextensions⟩
  · rintro ⟨hindent, hencoding, hextensions⟩
    rw [← givenBy_congr h] at hindent hencoding hextensions
    exact ⟨hindent, hencoding, hextensions⟩

theorem overlaid_of_foldlM (h : entries.foldlM setEntry standard = .ok t) :
    Overlaid entries t where
  indent := foldlM_setEntry Setting.lawful_indent h
  encoding := foldlM_setEntry Setting.lawful_encoding h
  extensions := foldlM_setEntry Setting.lawful_extensions h

-- --------------------------------------------------------------------
-- Loading

variable {d : Disk} {path c : Bytes} {doc : Toml.Document}

theorem overlay_isOk : s.overlay c = .ok t ↔ ∃ doc, Toml.Document.read c = .ok doc ∧
    doc.entries.foldlM setEntry s = .ok t ∧ unknownKey? doc = none ∧
    ((doc.get? encodingKey).isSome → Text.trim t.encoding ≠ []) := by
  unfold overlay
  cases hread : Toml.Document.read c with
  | error e => simp [bind, Except.bind]
  | ok doc =>
    cases hfold : doc.entries.foldlM setEntry s with
    | error f => simp [bind, Except.bind, hfold]
    | ok t' =>
      cases hunknown : unknownKey? doc with
      | some k => simp [bind, Except.bind, hfold, hunknown]
      | none =>
        simp only [bind, Except.bind, hfold, hunknown]
        split
        · next hblank =>
          simp only [Bool.and_eq_true, decide_eq_true_eq] at hblank
          simp [hfold, hunknown, hblank.1]
          rintro rfl
          exact hblank.2
        · next hblank =>
          simp only [Bool.and_eq_true, decide_eq_true_eq, not_and] at hblank
          simp [hfold, hunknown]
          rintro rfl
          exact hblank

theorem load_isOk (hc : d.read path = .ok c) :
    load d path = .ok s ↔
      ∃ t, standard.overlay c = .ok t ∧ s = { t with path := path } ∧ s.Valid := by
  rw [load, within_ok]
  simp only [bind_ok, contents_ok, hc, Except.ok.injEq]
  constructor
  · rintro ⟨_, rfl, t, ht, _, hvalid, h⟩
    cases h
    exact ⟨t, ht, rfl, validate_ok.mp hvalid⟩
  · rintro ⟨t, ht, rfl, hvalid⟩
    exact ⟨c, rfl, t, ht, (), validate_ok.mpr hvalid, rfl⟩

/-- Each key that is listed names a field, and what has the name of a field is what it takes. -/
structure Fitting (doc : Toml.Document) : Prop where
  listed : ∀ k ∈ doc.listed, ∃ e, (k, e) ∈ doc.entries ∧ Fits k e
  entries : ∀ k e, (k, e) ∈ doc.entries → (Field.ofKey? k).isSome → Fits k e

/-- All fits, and an encoding that has its exact name is not blank. -/
structure Acceptable (doc : Toml.Document) : Prop extends Fitting doc where
  filled : ∀ e, (encodingKey, .leaf (.string e)) ∈ doc.entries → Text.trim e ≠ []

theorem unknownKey?_eq_none (hdoc : doc.Sound)
    (hfits : ∀ k e, (k, e) ∈ doc.entries → (Field.ofKey? k).isSome → Fits k e) :
    unknownKey? doc = none ↔ ∀ k ∈ doc.listed, ∃ e, (k, e) ∈ doc.entries ∧ Fits k e := by
  simp only [unknownKey?, List.find?_eq_none, Bool.not_eq_true, Bool.not_eq_false',
    Bool.and_eq_true]
  refine forall₂_congr fun k _ => ⟨?_, ?_⟩
  · rintro ⟨hfield, hsome⟩
    obtain ⟨e, he⟩ := Option.isSome_iff_exists.mp hsome
    have hmem := hdoc.get?_eq_some_iff.mp he
    exact ⟨e, hmem, hfits k e hmem hfield⟩
  · rintro ⟨e, hmem, f, hfield, -⟩
    simp [hfield, hdoc.get?_eq_some_iff.mpr hmem]

/-- An overlay that succeeds leaves nothing that does not fit. -/
theorem fitting_of_overlay (hsound : doc.Sound) (hdoc : Toml.Document.read c = .ok doc)
    (h : s.overlay c = .ok t) : Fitting doc := by
  obtain ⟨_, hread, hfold, hunknown, -⟩ := overlay_isOk.mp h
  cases hdoc.symm.trans hread
  have hfits := foldlM_setEntry_isOk.mp ⟨t, hfold⟩
  exact ⟨(unknownKey?_eq_none hsound hfits).mp hunknown, hfits⟩

theorem singleValued_of_sound (hdoc : doc.Sound) : SingleValued doc.entries := by
  intro k v v' hmem hmem'
  have hv := hdoc.get?_eq_some_iff.mpr hmem
  rw [hdoc.get?_eq_some_iff.mpr hmem'] at hv
  exact (Toml.Entry.leaf.inj (Option.some.inj hv)).symm

theorem ofKey?_encodingKey : Field.ofKey? encodingKey = some .encoding := by decide +kernel

/-- A document that is read from the file is loaded exactly if it is acceptable and the settings
that it comes to are valid. -/
theorem load_iff (hc : d.read path = .ok c) (hdoc : Toml.Document.read c = .ok doc)
    (honce : SpelledOnce doc.entries) :
    load d path = .ok s ↔
      s.path = path ∧ Acceptable doc ∧ Overlaid doc.entries s ∧ s.Valid := by
  have hsound := Toml.Document.sound_of_read hdoc
  have hsingle := singleValued_of_sound hsound
  rw [load_isOk hc]
  constructor
  · rintro ⟨t, hoverlay, rfl, hvalid⟩
    have hfitting := fitting_of_overlay hsound hdoc hoverlay
    obtain ⟨_, hread, hfold, -, hblank⟩ := overlay_isOk.mp hoverlay
    cases hdoc.symm.trans hread
    have ht := overlaid_of_foldlM hfold
    refine ⟨rfl, ⟨hfitting, fun e he => ?_⟩, ⟨ht.indent, ht.encoding, ht.extensions⟩,
      hvalid⟩
    rw [← encoding_of_mem honce hsingle ht he ofKey?_encodingKey]
    exact hblank (by simp [hsound.get?_eq_some_iff.mpr he])
  · rintro ⟨rfl, hacceptable, hs, hvalid⟩
    obtain ⟨t, hfold⟩ := foldlM_setEntry_isOk.mpr hacceptable.entries
    have ht := overlaid_of_foldlM hfold
    have hunknown := (unknownKey?_eq_none hsound hacceptable.entries).mpr hacceptable.listed
    refine ⟨t, overlay_isOk.mpr ⟨doc, hdoc, hfold, hunknown, fun hsome => ?_⟩,
      hs.unique honce hsingle ⟨ht.indent, ht.encoding, ht.extensions⟩ rfl, hvalid⟩
    obtain ⟨e, he⟩ := Option.isSome_iff_exists.mp hsome
    have hmem := hsound.get?_eq_some_iff.mp he
    obtain ⟨f, hf, htakes⟩ := hacceptable.entries _ _ hmem (by simp [ofKey?_encodingKey])
    obtain rfl := Option.some.inj (ofKey?_encodingKey.symm.trans hf)
    cases htakes with
    | encoding e =>
      rw [encoding_of_mem honce hsingle ht hmem ofKey?_encodingKey]
      exact hacceptable.filled e hmem

-- --------------------------------------------------------------------
-- Texts

def AllFit (items : List Toml.Item) : Prop := ∀ k e, (k, e) ∈ items → Fits k e

theorem not_fits_tables {k : Toml.Key} : ¬ Fits k .tables := by
  rintro ⟨f, -, htakes⟩
  cases htakes

theorem Fits.eq_table {k : Toml.Key} {e : Toml.Entry} (h : Fits k e) (he : e.isLeaf = false) :
    e = .table := by
  cases e with
  | table => rfl
  | tables => exact absurd h not_fits_tables
  | leaf v => cases he

theorem AllFit.allPlain {items : List Toml.Item} (h : AllFit items) : Toml.AllPlain items := by
  intro k vs hmem
  obtain ⟨f, -, htakes⟩ := h _ _ hmem
  cases htakes with
  | extensions vs es hvs => exact ⟨es, hvs⟩

theorem AllFit.not_inTables {items : List Toml.Item} (h : AllFit items) (k : Toml.Key) :
    ¬ Toml.InTables items k := fun ⟨_, hmem, _⟩ => not_fits_tables (h _ _ hmem)

variable {ss : List Toml.Statement}

/-- If the document fits, the items of its text do. -/
theorem allFit_of_fitting (hss : Toml.Document.ofStatements ss = .ok doc)
    (horderly : Toml.Orderly (Toml.items [] ss)) (h : Fitting doc) : AllFit (Toml.items [] ss) := by
  have h := h.listed
  rw [Toml.Document.ofStatements_listed hss] at h
  have hnamed : ∀ k ∈ Toml.keys [] ss, k.Named := by
    intro k hk
    obtain ⟨e, -, f, hf, -⟩ := h k hk
    exact named_of_ofKey? hf
  have hadds := Toml.Document.ofStatements_adds hss horderly hnamed
  -- Outside of arrays of tables an item fits, since what is found at its key does.
  have hfits {k : Toml.Key} {e : Toml.Entry} (hmem : (k, e) ∈ Toml.items [] ss)
      (hnot : ¬ Toml.InTables (Toml.items [] ss) k) : Fits k e := by
    have hk : k ∈ Toml.keys [] ss :=
      (Toml.items_sublist [] ss).subset (List.mem_map.mpr ⟨_, hmem, rfl⟩)
    obtain ⟨e', hentry, hfits⟩ := h k hk
    obtain ⟨e'', hget, heq⟩ := hadds.found _ hmem hnot
    obtain rfl : e' = e'' :=
      Option.some.inj ((hadds.grows.sound.get?_eq_some_iff.mpr hentry).symm.trans hget)
    rcases heq with rfl | ⟨htable, hopen⟩
    · exact hfits
    · obtain rfl : e = .table := htable
      exact hfits.eq_table hopen ▸ hfits
  -- The outermost array of tables would be found as such.
  have htables (n : Nat) : ∀ k, k.length = n → (k, .tables) ∉ Toml.items [] ss := by
    induction n using Nat.strongRecOn with
    | ind n ih =>
      rintro k rfl hmem
      refine not_fits_tables (hfits hmem ?_)
      rintro ⟨r, hr, hbelow⟩
      exact ih r.length hbelow.length_lt r rfl hr
  exact fun k e hmem => hfits hmem fun ⟨r, hr, _⟩ => htables _ r rfl hr

/-- What a document holds of a text whose items all fit. -/
theorem entries_of_allFit (hss : Toml.Document.ofStatements ss = .ok doc)
    (horderly : Toml.Orderly (Toml.items [] ss)) (h : AllFit (Toml.items [] ss)) :
    (∀ i ∈ Toml.items [] ss, i ∈ doc.entries) ∧
      ∀ k e, (k, e) ∈ doc.entries →
        (k, e) ∈ Toml.items [] ss ∨ e = .table ∧ ∃ i ∈ Toml.items [] ss, k <+: i.1 := by
  have hnamed : ∀ k ∈ Toml.keys [] ss, k.Named := by
    rw [← Toml.map_fst_items h.allPlain]
    intro k hk
    obtain ⟨i, hi, rfl⟩ := List.mem_map.mp hk
    obtain ⟨f, hf, -⟩ := h _ _ hi
    exact named_of_ofKey? hf
  have hadds := Toml.Document.ofStatements_adds hss horderly hnamed
  have hsound := hadds.grows.sound
  have horigin (k : Toml.Key) (e : Toml.Entry) (hmem : (k, e) ∈ doc.entries) :
      (k, e) ∈ Toml.items [] ss ∨ e = .table ∧ ∃ i ∈ Toml.items [] ss, k <+: i.1 := by
    rcases hadds.grows.origin k e (hsound.get?_eq_some_iff.mpr hmem) with hget | hdeep | hmem |
      htable | ⟨k₀, vs, hmem, hplain, -⟩
    · cases hget
    · exact absurd hdeep (h.not_inTables k)
    · exact .inl hmem
    · exact .inr htable
    · exact absurd (h.allPlain k₀ vs hmem) hplain
  refine ⟨fun i hi => ?_, horigin⟩
  obtain ⟨e, hget, heq⟩ := hadds.found i hi (h.not_inTables _)
  have hentry := hsound.get?_eq_some_iff.mp hget
  rcases heq with rfl | ⟨htable, hopen⟩
  · exact hentry
  · have he : e = .table := by
      rcases horigin _ _ hentry with hmem | ⟨he, -⟩
      · exact (h _ _ hmem).eq_table hopen
      · exact he
    rw [he, ← htable] at hentry
    exact hentry

theorem leaf_mem_iff (hss : Toml.Document.ofStatements ss = .ok doc)
    (horderly : Toml.Orderly (Toml.items [] ss)) (h : AllFit (Toml.items [] ss)) (k : Toml.Key)
    (v : Toml.Value) : (k, .leaf v) ∈ doc.entries ↔ (k, .leaf v) ∈ Toml.items [] ss := by
  obtain ⟨hitems, horigin⟩ := entries_of_allFit hss horderly h
  refine ⟨fun hmem => (horigin _ _ hmem).resolve_right fun ⟨he, _⟩ => ?_, hitems _⟩
  cases he

theorem fitting_of_allFit (hss : Toml.Document.ofStatements ss = .ok doc)
    (horderly : Toml.Orderly (Toml.items [] ss)) (h : AllFit (Toml.items [] ss)) :
    Fitting doc := by
  obtain ⟨hitems, horigin⟩ := entries_of_allFit hss horderly h
  have hsound := Toml.Document.sound_of_ofStatements hss
  constructor
  · intro k hk
    rw [Toml.Document.ofStatements_listed hss, ← Toml.map_fst_items h.allPlain] at hk
    obtain ⟨⟨k, e⟩, hi, rfl⟩ := List.mem_map.mp hk
    exact ⟨e, hitems _ hi, h _ _ hi⟩
  · intro k e hmem hfield
    rcases horigin k e hmem with hmem | ⟨rfl, ⟨k', e'⟩, hi, hpre⟩
    · exact h k e hmem
    by_cases heq : k' = k
    · subst heq
      have hget := hsound.get?_eq_some_iff.mpr (hitems _ hi)
      rw [hsound.get?_eq_some_iff.mpr hmem] at hget
      exact Option.some.inj hget ▸ h _ _ hi
    · obtain ⟨f, hf, -⟩ := h _ _ hi
      refine fits_of_below hf ?_ ⟨hpre, heq⟩
      rintro rfl
      cases hfield

/-- What it takes of the items of a text to be loaded as these settings. -/
structure Accepts (items : List Toml.Item) (s : Settings) : Prop where
  fits : AllFit items
  filled : ∀ e, (encodingKey, .leaf (.string e)) ∈ items → Text.trim e ≠ []
  overlaid : Overlaid items s
  valid : s.Valid

theorem load_iff_items (hc : d.read path = .ok c) (htext : Toml.statements? c = some ss)
    (hss : Toml.Document.ofStatements ss = .ok doc) (horderly : Toml.Orderly (Toml.items [] ss))
    (honce : SpelledOnce (Toml.items [] ss)) :
    load d path = .ok s ↔ s.path = path ∧ Accepts (Toml.items [] ss) s := by
  have hdoc : Toml.Document.read c = .ok doc := Toml.Document.read_ok.mpr ⟨ss, htext, hss⟩
  have hiff (hfits : AllFit (Toml.items [] ss)) :
      load d path = .ok s ↔
        s.path = path ∧ Acceptable doc ∧ Overlaid (Toml.items [] ss) s ∧ s.Valid := by
    have hleaf := leaf_mem_iff hss horderly hfits
    rw [← overlaid_congr hleaf]
    refine load_iff hc hdoc fun k v k' v' hmem hmem' => ?_
    exact honce k v k' v' ((hleaf k v).mp hmem) ((hleaf k' v').mp hmem')
  constructor
  · intro h
    have hfits : AllFit (Toml.items [] ss) := by
      obtain ⟨t, ht, -⟩ := (load_isOk hc).mp h
      have hsound := Toml.Document.sound_of_ofStatements hss
      exact allFit_of_fitting hss horderly (fitting_of_overlay hsound hdoc ht)
    obtain ⟨hpath, hacceptable, hoverlaid, hvalid⟩ := (hiff hfits).mp h
    refine ⟨hpath, hfits, fun e he => hacceptable.filled e ?_, hoverlaid, hvalid⟩
    exact (leaf_mem_iff hss horderly hfits _ _).mpr he
  · rintro ⟨hpath, h⟩
    have hfitting := fitting_of_allFit hss horderly h.fits
    refine (hiff h.fits).mpr ⟨hpath, ⟨hfitting, fun e he => h.filled e ?_⟩, h.overlaid, h.valid⟩
    exact (leaf_mem_iff hss horderly h.fits _ _).mp he

theorem Accepts.of_mem_iff {items items' : List Toml.Item} (h : ∀ i, i ∈ items ↔ i ∈ items')
    (hs : Accepts items s) : Accepts items' s where
  fits k e hmem := hs.fits k e ((h _).mpr hmem)
  filled e hmem := hs.filled e ((h _).mpr hmem)
  overlaid := (overlaid_congr fun _ _ => h _).mp hs.overlaid
  valid := hs.valid

theorem accepts_congr {items items' : List Toml.Item} (h : ∀ i, i ∈ items ↔ i ∈ items') :
    Accepts items s ↔ Accepts items' s :=
  ⟨.of_mem_iff h, .of_mem_iff fun i => (h i).symm⟩

/-- A text loads exactly if what it comes to is acceptable and valid. If it defines no key twice,
its items decide, whatever their order. -/
theorem load_accepts (hc : d.read path = .ok c) (htext : Toml.statements? c = some ss)
    (hss : Toml.Document.ofStatements ss = .ok doc) :
    (SpelledOnce doc.entries → ∀ s, load d path = .ok s ↔
      s.path = path ∧ Acceptable doc ∧ Overlaid doc.entries s ∧ s.Valid) ∧
    (Toml.Orderly (Toml.items [] ss) → SpelledOnce (Toml.items [] ss) →
      (∀ s, load d path = .ok s ↔ s.path = path ∧ Accepts (Toml.items [] ss) s) ∧
      ∀ d' c' ss' doc', d'.read path = .ok c' → Toml.statements? c' = some ss' →
        Toml.Document.ofStatements ss' = .ok doc' → (Toml.items [] ss).Perm (Toml.items [] ss') →
        ∀ s, load d' path = .ok s ↔ load d path = .ok s) := by
  refine ⟨fun honce s => load_iff hc (Toml.Document.read_ok.mpr ⟨ss, htext, hss⟩) honce,
    fun horderly honce => ⟨fun s => load_iff_items hc htext hss horderly honce, ?_⟩⟩
  intro d' c' ss' doc' hc' htext' hss' hperm s
  have honce' : SpelledOnce (Toml.items [] ss') := by
    intro k v k' v' hmem hmem'
    exact honce k v k' v' (hperm.mem_iff.mpr hmem) (hperm.mem_iff.mpr hmem')
  rw [load_iff_items hc' htext' hss' (horderly.perm hperm) honce',
    load_iff_items hc htext hss horderly honce, accepts_congr fun _ => hperm.mem_iff]

/-- A disk with a settings file. -/
def settingsDisk (content : Bytes) : Disk :=
  { tree := Tree.empty.set [fileName] (.file .ofFile content)
    cwd := [] }

/-- Two tables in either order, with other capitals. -/
theorem load_accepts_reordered :
    let c := bytes "[style]\nIndent = 4\n[FILES]\nextensions = ['.ts']\n"
    let c' := bytes "[FILES]\nextensions = ['.ts']\n[style]\nIndent = 4\n"
    let s : Settings := ⟨fileName, 4, bytes "utf-8", [bytes ".ts"]⟩
    ∃ ss, Toml.statements? c = some ss ∧ Accepts (Toml.items [] ss) s ∧
      load (settingsDisk c') fileName = .ok s := by
  intro c c' s
  let ss : List Toml.Statement :=
    [.table [bytes "style"], .assign [bytes "Indent"] (.integer 4), .table [bytes "FILES"],
      .assign [bytes "extensions"] (.array (.cons (.string (bytes ".ts")) .nil))]
  let ss' : List Toml.Statement :=
    [.table [bytes "FILES"],
      .assign [bytes "extensions"] (.array (.cons (.string (bytes ".ts")) .nil)),
      .table [bytes "style"], .assign [bytes "Indent"] (.integer 4)]
  have htext : Toml.statements? c = some ss := rfl
  have htext' : Toml.statements? c' = some ss' := rfl
  obtain ⟨doc, hss⟩ : ∃ doc, Toml.Document.ofStatements ss = .ok doc := ⟨_, rfl⟩
  obtain ⟨doc', hss'⟩ : ∃ doc, Toml.Document.ofStatements ss' = .ok doc := ⟨_, rfl⟩
  have horderly : Toml.Orderly (Toml.items [] ss) := Toml.orderly_of_apart (by decide +kernel)
  have hperm : (Toml.items [] ss).Perm (Toml.items [] ss') :=
    (List.perm_append_comm : ([_, _] ++ [_, _]).Perm ([_, _] ++ [_, _]))
  have honce : SpelledOnce (Toml.items [] ss) := by
    have hother : Field.ofKey? [bytes "style", bytes "Indent"] ≠
        Field.ofKey? [bytes "FILES", bytes "extensions"] := by
      decide +kernel
    rintro k v k' v' hmem hmem' - heq
    simp [ss, Toml.items, Toml.Entries.items, Toml.Value.items, Toml.Key.inside] at hmem hmem'
    rcases hmem with ⟨rfl, -⟩ | ⟨rfl, -⟩ <;> rcases hmem' with ⟨rfl, -⟩ | ⟨rfl, -⟩
    · rfl
    · exact absurd heq hother
    · exact absurd heq.symm hother
    · rfl
  have hload : load (settingsDisk c) fileName = .ok s := by decide +kernel
  have hread : (settingsDisk c).read fileName = .ok c := by decide +kernel
  have hread' : (settingsDisk c').read fileName = .ok c' := by decide +kernel
  obtain ⟨haccepts, hreordered⟩ := (load_accepts hread htext hss).2 horderly honce
  exact ⟨ss, htext, ((haccepts s).mp hload).2,
    (hreordered (settingsDisk c') c' ss' doc' hread' htext' hss' hperm s).mpr hload⟩

end Settings

end Restyler
