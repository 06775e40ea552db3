import Restyler.Proofs.Defining

/-!
# What a document holds

A document holds the items of its text and the tables that they are in, and nothing else, if the
text is orderly and no array in it has more than strings. What is in other arrays, or in an array of
tables, is left open: these are the `deep` places.
-/

namespace Restyler.Toml

namespace Document

variable {d d' d'' : Document} {k : Key} {e : Entry} {v : Value}

-- --------------------------------------------------------------------
-- Reading items

/-- Where the items may lose an entry: in an array, and in `deep` places. -/
def Lossy (deep : Key → Prop) (items : List Item) (k : Key) : Prop :=
  deep k ∨ ∃ k₀ vs, (k₀, .leaf (.array vs)) ∈ items ∧ k₀ <+: k

/-- What the items bring: themselves, the tables that they are in, and what stands in an array. -/
def Brings (deep : Key → Prop) (items : List Item) (k : Key) (e : Entry) : Prop :=
  deep k ∨ (k, e) ∈ items ∨ e = .table ∧ (∃ i ∈ items, k <+: i.1) ∨
    ∃ k₀ vs, (k₀, .leaf (.array vs)) ∈ items ∧ ¬ Plain vs ∧ k₀ <+: k

abbrev Adding (deep : Key → Prop) (items : List Item) : Document → Document → Prop :=
  Grows (Lossy deep items) (Brings deep items)

abbrev Confined (deep : Key → Prop) : Document → Document → Prop := Grows deep fun k _ => deep k

/-- The items have values once, except in `deep` places. -/
structure Proper (deep : Key → Prop) (items : List Item) : Prop where
  up : ∀ p q, deep p → p <+: q → deep q
  tables : ∀ k, (k, .tables) ∈ items → ∀ p, Below k p → deep p
  apart : items.Pairwise fun i j => Apart i j ∨ deep i.1 ∧ deep j.1

/-- The document is one that the items can be added to. -/
structure Ready (deep : Key → Prop) (items : List Item) (d : Document) : Prop where
  sound : d.Sound
  clear : ∀ p ∈ d.arrays, ∀ i ∈ items, p <+: i.1 → deep p
  fresh : ∀ i ∈ items, ¬ deep i.1 → ∀ e, d.get? i.1 = some e →
    i.2.isLeaf = false ∧ e.isLeaf = false

/-- The items have been added. Of a table that was named it may be that it is an array of tables. -/
structure Adds (deep : Key → Prop) (items : List Item) (d d' : Document) : Prop where
  grows : Adding deep items d d'
  found : ∀ i ∈ items, ¬ deep i.1 →
    ∃ e, d'.get? i.1 = some e ∧ (e = i.2 ∨ i.2 = .table ∧ e.isLeaf = false)

variable {deep : Key → Prop} {I J : List Item}

theorem Lossy.up (hup : ∀ p q, deep p → p <+: q → deep q) {p q : Key} (h : Lossy deep I p)
    (hpre : p <+: q) : Lossy deep I q := by
  rcases h with hdeep | ⟨k₀, vs, hmem, hk₀⟩
  · exact .inl (hup p q hdeep hpre)
  · exact .inr ⟨k₀, vs, hmem, hk₀.trans hpre⟩

theorem Lossy.mono {k : Key} (h : Lossy deep I k) (hsub : I ⊆ J) : Lossy deep J k :=
  h.imp_right fun ⟨k₀, vs, hmem, hk₀⟩ => ⟨k₀, vs, hsub hmem, hk₀⟩

theorem Brings.mono {k : Key} {e : Entry} (h : Brings deep I k e) (hsub : I ⊆ J) :
    Brings deep J k e := by
  rcases h with hdeep | hmem | ⟨rfl, i, hi, hpre⟩ | ⟨k₀, vs, hmem, hplain, hk₀⟩
  · exact .inl hdeep
  · exact .inr (.inl (hsub hmem))
  · exact .inr (.inr (.inl ⟨rfl, i, hsub hi, hpre⟩))
  · exact .inr (.inr (.inr ⟨k₀, vs, hsub hmem, hplain, hk₀⟩))

namespace Proper

theorem left (h : Proper deep (I ++ J)) : Proper deep I where
  up := h.up
  tables k hk := h.tables k (List.mem_append_left _ hk)
  apart := (List.pairwise_append.mp h.apart).1

theorem right (h : Proper deep (I ++ J)) : Proper deep J where
  up := h.up
  tables k hk := h.tables k (List.mem_append_right _ hk)
  apart := (List.pairwise_append.mp h.apart).2.1

/-- An item with a value that is at or above one of the others is in a deep place. -/
theorem deep_of_isPrefix (h : Proper deep (I ++ J)) {i j : Item} (hi : i ∈ I) (hj : j ∈ J)
    (hpre : i.2.isLeaf = true ∧ i.1 <+: j.1 ∨ j.2.isLeaf = true ∧ j.1 <+: i.1) :
    deep i.1 ∧ deep j.1 := by
  refine ((List.pairwise_append.mp h.apart).2.2 i hi j hj).resolve_left fun hapart => ?_
  rcases hpre with ⟨hleaf, hpre⟩ | ⟨hleaf, hpre⟩
  · exact hapart.1 hleaf hpre
  · exact hapart.2 hleaf hpre

end Proper

theorem Ready.left (h : Ready deep (I ++ J) d) : Ready deep I d where
  sound := h.sound
  clear p hp i hi := h.clear p hp i (List.mem_append_left _ hi)
  fresh i hi := h.fresh i (List.mem_append_left _ hi)

theorem Ready.after (hproper : Proper deep (I ++ J)) (h : Ready deep (I ++ J) d)
    (hadds : Adds deep I d d') : Ready deep J d' where
  sound := hadds.grows.sound
  clear p hp j hj hpre := by
    rcases hadds.grows.noted p hp with hp | hdeep | ⟨k₀, vs, hmem, hk₀⟩
    · exact h.clear p hp j (List.mem_append_right _ hj) hpre
    · exact hdeep
    · exact hproper.up _ _ (hproper.deep_of_isPrefix hmem hj (.inl ⟨rfl, hk₀.trans hpre⟩)).1 hk₀
  fresh j hj hnot e he := by
    have hapart {i : Item} (hi : i ∈ I) : Apart i j :=
      ((List.pairwise_append.mp hproper.apart).2.2 i hi j hj).resolve_right fun h => hnot h.2
    rcases hadds.grows.origin _ _ he with he | hdeep | hmem | ⟨rfl, i, hi, hpre⟩ |
      ⟨k₀, vs, hmem, -, hk₀⟩
    · exact h.fresh j (List.mem_append_right _ hj) hnot e he
    · exact absurd hdeep hnot
    · exact ⟨by simpa using fun h => (hapart hmem).2 h (List.prefix_refl _),
        by simpa using fun h => (hapart hmem).1 h (List.prefix_refl _)⟩
    · exact ⟨by simpa using fun h => (hapart hi).2 h hpre, rfl⟩
    · exact absurd hk₀ ((hapart hmem).1 rfl)

theorem Adds.append (hproper : Proper deep (I ++ J)) (h : Adds deep I d d')
    (h' : Adds deep J d' d'') : Adds deep (I ++ J) d d'' where
  grows := (h.grows.mono (fun _ hk => hk.mono (List.subset_append_left _ _))
    fun _ _ hk => hk.mono (List.subset_append_left _ _)).trans
      (h'.grows.mono (fun _ hk => hk.mono (List.subset_append_right _ _))
        fun _ _ hk => hk.mono (List.subset_append_right _ _))
  found i hi hnot := by
    rcases List.mem_append.mp hi with hi | hi
    · obtain ⟨e, he, hfound⟩ := h.found i hi hnot
      refine ⟨e, h'.grows.kept _ _ he ?_, hfound⟩
      rintro (hdeep | ⟨k₀, vs, hmem, hk₀⟩)
      · exact hnot hdeep
      · exact hnot (hproper.deep_of_isPrefix hi hmem (.inr ⟨rfl, hk₀⟩)).1
    · exact h'.found i hi hnot

theorem Adds.of_adding (h : Adding deep I d d') (h' : Adds deep I d' d'') :
    Adds deep I d d'' := ⟨h.trans h'.grows, h'.found⟩

theorem Adds.confined (h : Adds deep I d d') (h' : Confined deep d' d'') : Adds deep I d d'' where
  grows := h.grows.trans (h'.mono (fun _ => .inl) fun _ _ => .inl)
  found i hi hnot := by
    obtain ⟨e, he, hfound⟩ := h.found i hi hnot
    exact ⟨e, h'.kept _ _ he hnot, hfound⟩

/-- A table gets no note of an array. -/
theorem Adds.deep_of_noted (hready : Ready deep I d) (h : Adds deep I d d') {i : Item} (hi : i ∈ I)
    (harrays : ∀ k vs, (k, .leaf (.array vs)) ∈ I → ¬ k <+: i.1) (hnoted : i.1 ∈ d'.arrays) :
    deep i.1 := by
  rcases h.grows.noted _ hnoted with hnoted | hdeep | ⟨k₀, vs, hmem, hk₀⟩
  · exact hready.clear _ hnoted i hi (List.prefix_refl _)
  · exact hdeep
  · exact absurd hk₀ (harrays k₀ vs hmem)

theorem Adds.typed {context : Key} {name : Bytes} (hready : Ready deep I d) (h : Adds deep I d d')
    {i : Item} (hi : i ∈ I) (harrays : ∀ k vs, (k, .leaf (.array vs)) ∈ I → ¬ k <+: i.1)
    (hkey : typedKey context name = i.1) : Adds deep I d (d'.typed context name false) := by
  refine h.confined (.typed h.grows.sound ?_)
  rw [hkey]
  by_cases hdeep : deep i.1
  · exact .inl hdeep
  · have hnot : i.1 ∉ d'.arrays := fun hnoted =>
      hdeep (h.deep_of_noted hready hi harrays hnoted)
    exact .inr (iff_of_false (by simp) hnot)

-- --------------------------------------------------------------------
-- Values

theorem evaluateAll_plain {vs : Values} (h : Plain vs) {context : Key} {name : Bytes}
    (hd : evaluateAll context name vs d = .ok d') : d' = d := by
  obtain ⟨es, hes⟩ := h
  induction es generalizing vs with
  | nil =>
    cases vs with
    | nil =>
      rw [evaluateAll] at hd
      cases hd
      rfl
    | cons v vs => cases hes
  | cons e es ih =>
    cases vs with
    | nil => cases hes
    | cons v vs =>
      obtain ⟨rfl, hvs⟩ := List.cons.inj hes
      have hstring : evaluate context name true (.string e) d = .ok d := rfl
      rw [evaluateAll, hstring] at hd
      exact ih hd hvs

theorem plant_leaf (hv : ∀ es, v ≠ .inline es) : plant k d v = d.put k (.leaf v) := by
  rw [plant]
  exact hv

theorem items_leaf (hv : ∀ es, v ≠ .inline es) : v.items k = [(k, .leaf v)] := by
  rw [Value.items]
  exact hv

theorem typedKey_of_ne {context : Key} {name : Bytes} (hname : name ≠ []) :
    typedKey context name = context ++ [name] := if_pos hname

/-- A value is put at its key, which has none or is noted as an array. -/
theorem leaf_adds {inner : Key} {name : Bytes} (hkey : typedKey inner name = k) (hne : k ≠ [])
    (hv : ∀ es, v ≠ .inline es) (hup : ∀ p q, deep p → p <+: q → deep q) (hI : I = [(k, .leaf v)])
    (h : Adding deep I d d') (hlossy : v.isArray = true ∨ k ∈ d'.arrays → Lossy deep I k)
    (hnone : k ∉ d'.arrays → ¬ deep k → d'.get? k = none) (hd : d'.define k v = .ok d'') :
    Adds deep I d (d''.typed inner name v.isArray) := by
  have hput {x : Document} (hx : x.Sound) (hopen : ∀ p ∈ parents k, (x.get? p).isSome)
      (hlost : x.get? k = none ∨ k ∈ d'.arrays) :
      Adding deep I x (x.put k (.leaf v)) := by
    refine .put hx (absurd · hne) hopen ?_ (.inr (.inl (by simp [hI])))
    exact hlost.imp_right fun harray => .inr fun p => (hlossy (.inr harray)).up hup
  have hdefine : Adding deep I d' d'' ∧ (¬ deep k → d''.get? k = some (.leaf v)) := by
    obtain ⟨hopen, ⟨rfl, habsent⟩ | ⟨rfl, -, harray⟩ | ⟨rfl, hsome, harray⟩⟩ := define_ok hd
    · rw [plant_leaf hv]
      exact ⟨hput h.sound hopen (.inl habsent), fun _ => by simp [get?_put]⟩
    · rw [plant_leaf hv]
      have hnamed : Adding deep I d' (d'.name k) := .of_eq h.sound rfl rfl
      exact ⟨hnamed.trans (hput hnamed.sound hopen (.inr harray)), fun _ => by simp [get?_put]⟩
    · refine ⟨.of_eq h.sound rfl rfl, fun hnot => ?_⟩
      simp [hnone harray hnot] at hsome
  have htyped : Adding deep I d'' (d''.typed inner name v.isArray) := by
    refine .typed hdefine.1.sound ?_
    rw [hkey]
    by_cases hloose : Lossy deep I k
    · exact .inl hloose
    · refine .inr (iff_of_false (fun h => hloose (hlossy (.inl h))) fun harray => hloose ?_)
      exact (hdefine.1.noted _ harray).elim (fun h => hlossy (.inr h)) id
  refine ⟨(h.trans hdefine.1).trans htyped, fun i hi hnot => ?_⟩
  obtain rfl : i = (k, .leaf v) := by simpa [hI] using hi
  exact ⟨.leaf v, hdefine.2 hnot, .inl rfl⟩

/-- A table is opened, or a table of an array of tables. -/
theorem openTable_adds {inArray : Bool} (hne : k ≠ [])
    (hI : I = [(k, if inArray then .tables else .table)]) (hproper : Proper deep I)
    (hready : Ready deep I d) (hd : d.openTable k inArray = .ok d') : Adds deep I d d' := by
  have hmem : (k, if inArray then .tables else .table) ∈ I := by simp [hI]
  have hleaf (v : Value) : (k, .leaf v) ∉ I := by
    cases inArray <;> simp [hI]
  have hgrows : Adding deep I d d' ∧ ∃ e, d'.get? k = some e ∧ (inArray = true → e = .tables) := by
    refine openTable_grows hready.sound (absurd · hne) hd
      (fun p hp => .inr (.inr (.inl ⟨rfl, _, hmem, hp.1⟩))) (.inr (.inl hmem)) ?_
    split
    · next hin =>
      rw [if_pos hin] at hmem
      exact fun p hp => .inl (hproper.tables k hmem p hp)
    · intro harray p hp
      exact .inl (hproper.up _ _ (hready.clear k harray _ hmem (List.prefix_refl _)) hp)
  obtain ⟨hgrows, e, he, htables⟩ := hgrows
  refine ⟨hgrows, fun i hi hnot => ⟨e, ?_⟩⟩
  obtain rfl : i = (k, if inArray then .tables else .table) := by simpa [hI] using hi
  refine ⟨he, ?_⟩
  cases inArray with
  | true => exact .inl (htables rfl)
  | false =>
    refine .inr ⟨rfl, ?_⟩
    rcases hgrows.origin _ _ he with he | hdeep | hmem' | ⟨rfl, -⟩ | ⟨k₀, vs, hmem', -⟩
    · exact (hready.fresh _ hi hnot e he).2
    · exact absurd hdeep hnot
    · obtain rfl : e = .table := by simpa [hI] using hmem'
      rfl
    · rfl
    · simp [hI] at hmem'

/-- Entering the tables above some items leaves the document ready for them. -/
theorem Ready.enter {context key : Key} (hup : ∀ p q, deep p → p <+: q → deep q)
    (hready : Ready deep I d) (hI : ∀ i ∈ I, context.inside key <+: i.1) (hne : I ≠ [])
    (hd : d.enter context key.dropLast = .ok d') : Adding deep I d d' ∧ Ready deep I d' := by
  have hbelow : Below (context ++ key.dropLast) (context.inside key) := below_concat _ _
  have hgrows : Grows deep (fun p e => e = .table ∧ p <+: context ++ key.dropLast) d d' := by
    refine enter_grows hready.sound hd (fun p hp => ⟨rfl, hp⟩) hup fun p harray _ hp => ?_
    obtain ⟨i, hi⟩ := List.exists_mem_of_ne_nil I hne
    exact hready.clear p harray i hi (hp.trans (hbelow.1.trans (hI i hi)))
  constructor
  · refine hgrows.mono (fun _ => .inl) ?_
    rintro p e ⟨rfl, hp⟩
    obtain ⟨i, hi⟩ := List.exists_mem_of_ne_nil I hne
    exact .inr (.inr (.inl ⟨rfl, i, hi, hp.trans (hbelow.1.trans (hI i hi))⟩))
  · refine ⟨hgrows.sound, fun p hp i hi hpre => ?_, fun i hi hnot e he => ?_⟩
    · exact (hgrows.noted p hp).elim (fun hp => hready.clear p hp i hi hpre) id
    · rcases hgrows.origin _ _ he with he | ⟨-, hp⟩
      · exact hready.fresh i hi hnot e he
      · exact absurd rfl (hbelow.trans ((hI i hi).trans hp)).2

/-- What is in an array goes when the array is put at its key. -/
theorem array_adds {inner : Key} {name : Bytes} {vs : Values} (hname : name ≠ [])
    (hproper : Proper deep ((Value.array vs).items (inner ++ [name])))
    (hready : Ready deep ((Value.array vs).items (inner ++ [name])) d)
    (hnamed : ∀ k ∈ (Value.array vs).keys (inner ++ [name]), k.Named)
    (hevaluate : evaluate inner name false (.array vs) d = .ok d')
    (hd : d'.define (inner ++ [name]) (.array vs) = .ok d'') :
    Adds deep ((Value.array vs).items (inner ++ [name])) d
      (d''.typed inner name (Value.array vs).isArray) := by
  have hv (es : Entries) : Value.array vs ≠ .inline es := by simp
  rw [items_leaf hv] at hproper hready ⊢
  rw [evaluate] at hevaluate
  have hlossy : Lossy deep [(inner ++ [name], .leaf (.array vs))] (inner ++ [name]) :=
    .inr ⟨_, vs, List.mem_cons_self, List.prefix_refl _⟩
  have htyped : Adding deep [(inner ++ [name], .leaf (.array vs))] d (d.typed inner name true) :=
    .typed hready.sound (.inl (by rwa [typedKey_of_ne hname]))
  have hnoted : inner ++ [name] ∈ (d.typed inner name true).arrays :=
    mem_typed.mpr (.inl ⟨(typedKey_of_ne hname).symm, rfl⟩)
  have helements : Adding deep [(inner ++ [name], .leaf (.array vs))] (d.typed inner name true) d' ∧
      inner ++ [name] ∈ d'.arrays := by
    by_cases hplain : Plain vs
    · rw [evaluateAll_plain hplain hevaluate]
      exact ⟨.refl htyped.sound, hnoted⟩
    have hfree : Free (Below (inner ++ [name]))
        (fun p e => inner ++ [name] <+: p ∨ Below p (inner ++ [name]) ∧ e = .table)
        (inner ++ [name]) :=
      ⟨fun _ _ => .trans, fun _ => id, fun _ _ => .inl, fun _ hp => .inr ⟨hp, rfl⟩⟩
    have hgrows := evaluateAll_grows hfree htyped.sound
      (.inr (by rwa [typedKey_of_ne hname])) vs (fun _ => hnamed) hevaluate
    refine ⟨hgrows.mono (fun p hp => hlossy.up hproper.up hp.1) ?_,
      (hgrows.retained _ hnoted).resolve_right fun h => h.2 rfl⟩
    rintro p e (hp | ⟨hp, rfl⟩)
    · exact .inr (.inr (.inr ⟨_, vs, List.mem_cons_self, hplain, hp⟩))
    · exact .inr (.inr (.inl ⟨rfl, _, List.mem_cons_self, hp.1⟩))
  exact leaf_adds (typedKey_of_ne hname) (List.concat_ne_nil _ _) hv hproper.up rfl
    (htyped.trans helements.1) (fun _ => hlossy) (fun hnot => absurd helements.2 hnot) hd

/-- A value that is neither an array nor an inline table. -/
theorem scalar_adds {inner : Key} {name : Bytes} (hkey : typedKey inner name = k) (hne : k ≠ [])
    (hv : ∀ es, v ≠ .inline es) (harray : v.isArray = false) (hproper : Proper deep (v.items k))
    (hready : Ready deep (v.items k) d) (hd : d.define k v = .ok d') :
    Adds deep (v.items k) d (d'.typed inner name v.isArray) := by
  have hitems : v.items k = [(k, .leaf v)] := items_leaf hv
  have hmem : (k, .leaf v) ∈ v.items k := by simp [hitems]
  refine leaf_adds hkey hne hv hproper.up hitems (.refl hready.sound) (fun h => .inl ?_)
    (fun _ hnot => ?_) hd
  · rcases h with h | h
    · simp [harray] at h
    · exact hready.clear _ h _ hmem (List.prefix_refl _)
  · refine Option.eq_none_iff_forall_ne_some.mpr fun e he => ?_
    exact absurd (hready.fresh _ hmem hnot e he).1 (by simp [Entry.isLeaf])

/-- The assignments in an inline table come between opening the table and giving the key its value,
which changes nothing any more. -/
theorem inline_adds {inner : Key} {name : Bytes} {es : Entries} {d₁ d₂ d₃ : Document}
    (hkey : typedKey inner name = k) (hne : k ≠ [])
    (hproper : Proper deep ((Value.inline es).items k))
    (hready : Ready deep ((Value.inline es).items k) d)
    (hopen : (d.imply k).openTable k false = .ok d₁)
    (hadds : Ready deep (es.items k) d₁ → Adds deep (es.items k) d₁ d₂)
    (hd : d₂.define k (.inline es) = .ok d₃) :
    Adds deep ((Value.inline es).items k) d
      (d₃.typed inner name (Value.inline es).isArray) := by
  have hsplit : (Value.inline es).items k = [(k, .table)] ++ es.items k := by
    rw [Value.items, List.singleton_append]
  rw [hsplit] at hproper hready ⊢
  have hmem : (k, Entry.table) ∈ [(k, .table)] ++ es.items k := List.mem_cons_self
  have himply : Ready deep ([(k, .table)] ++ es.items k) (d.imply k) :=
    ⟨⟨hready.sound.distinct, hready.sound.closed⟩, hready.clear, hready.fresh⟩
  have hopened : Adds deep [(k, .table)] (d.imply k) d₁ :=
    openTable_adds hne (by rfl) hproper.left himply.left hopen
  have himplied : Adding deep [(k, .table)] d (d.imply k) := .of_eq hready.sound rfl rfl
  have hfirst : Adds deep [(k, .table)] d d₁ := .of_adding himplied hopened
  have hboth := hfirst.append hproper (hadds (.after hproper hready hfirst))
  have harrays (k₀ : Key) (vs : Values) (hmem₀ : (k₀, .leaf (.array vs)) ∈
      [(k, .table)] ++ es.items k) : ¬ k₀ <+: k := by
    intro hpre
    rcases List.mem_cons.mp hmem₀ with h | h
    · cases h
    · exact absurd rfl ((below_of_mem_items es h).trans hpre).2
  have hplant {x : Document} (hx : x.Sound) (hparents : ∀ p ∈ parents k, (x.get? p).isSome)
      (hdeep : deep k) : Confined deep x (plant k x (.inline es)) :=
    (plant_grows hx hne hparents _).mono (fun p => hproper.up _ p hdeep)
      fun p _ => hproper.up _ p hdeep
  have hdefine : Confined deep d₂ d₃ := by
    have hnamed : Confined deep d₂ (d₂.name k) := .of_eq hboth.grows.sound rfl rfl
    obtain ⟨hparents, ⟨rfl, habsent⟩ | ⟨rfl, -, harray⟩ | ⟨rfl, -⟩⟩ := define_ok hd
    · refine hplant hboth.grows.sound hparents ?_
      by_contra hnot
      obtain ⟨e, he, -⟩ := hboth.found _ hmem hnot
      simp [habsent] at he
    · have hdeep := hboth.deep_of_noted hready hmem harrays harray
      exact hnamed.trans (hplant hnamed.sound hparents hdeep)
    · exact hnamed
  exact (hboth.confined hdefine).typed hready hmem harrays hkey

mutual
theorem value_adds {inner : Key} {name : Bytes} {d d₁ d₂ : Document} (hname : name ≠ []) :
    ∀ v : Value, Proper deep (v.items (inner ++ [name])) →
      Ready deep (v.items (inner ++ [name])) d →
      (∀ k ∈ v.keys (inner ++ [name]), k.Named) → evaluate inner name false v d = .ok d₁ →
      d₁.define (inner ++ [name]) v = .ok d₂ →
      Adds deep (v.items (inner ++ [name])) d (d₂.typed inner name v.isArray)
  | .array vs, hproper, hready, hnamed, hevaluate, hd =>
    array_adds hname hproper hready hnamed hevaluate hd
  | .inline es, hproper, hready, hnamed, hevaluate, hd => by
    obtain ⟨d, hopen, hassign⟩ := evaluate_inline.mp hevaluate
    rw [Value.items] at hproper
    refine inline_adds (typedKey_of_ne hname) (List.concat_ne_nil _ _) hproper hready hopen
      (fun hready => ?_) hd
    exact entries_adds es (hproper.right (I := [_])) hready hnamed hassign
  | .string _, hproper, hready, _, hevaluate, hd | .integer _, hproper, hready, _, hevaluate, hd
  | .float, hproper, hready, _, hevaluate, hd | .boolean _, hproper, hready, _, hevaluate, hd
  | .datetime, hproper, hready, _, hevaluate, hd => by
    rw [evaluate] at hevaluate
    · cases hevaluate
      exact scalar_adds (typedKey_of_ne hname) (List.concat_ne_nil _ _) nofun rfl hproper hready hd
    all_goals exact nofun
theorem entries_adds {context : Key} {d d' : Document} :
    ∀ es : Entries, Proper deep (es.items context) → Ready deep (es.items context) d →
      (∀ k ∈ es.keys context, k.Named) → assignAll context es d = .ok d' →
      Adds deep (es.items context) d d'
  | .nil, _, hready, _, hd => by
    rw [assignAll] at hd
    cases hd
    exact ⟨.refl hready.sound, fun i hi => by simp [Entries.items] at hi⟩
  | .cons key v rest, hproper, hready, hnamed, hd => by
    rw [Entries.items] at hproper hready ⊢
    obtain ⟨d₁, d₂, d₃, henter, hv, hdefine, hd⟩ := assignAll_cons.mp hd
    have hname : key.getLast?.getD [] ≠ [] := by
      simpa [Key.Named, Key.inside] using hnamed _ List.mem_cons_self
    have hne : v.items (context.inside key) ≠ [] := by
      cases v <;> simp [Value.items]
    obtain ⟨henter, h₁⟩ := hready.left.enter hproper.up
      (fun i => isPrefix_of_mem_items v) hne henter
    have hlisted : Adding deep (v.items (context.inside key)) d₁ (d₁.list (context.inside key)) :=
      .of_eq h₁.sound rfl rfl
    have hlist : Ready deep (v.items (context.inside key)) (d₁.list (context.inside key)) :=
      ⟨hlisted.sound, h₁.clear, h₁.fresh⟩
    have hvalue := value_adds hname v hproper.left hlist
      (fun k hk => hnamed k (List.mem_cons_of_mem _ (List.mem_append_left _ hk))) hv hdefine
    have hfirst := Adds.of_adding (henter.trans hlisted) hvalue
    refine hfirst.append hproper (entries_adds rest hproper.right (.after hproper hready hfirst)
      (fun k hk => hnamed k (List.mem_cons_of_mem _ (List.mem_append_right _ hk))) hd)
end

-- --------------------------------------------------------------------
-- Texts

theorem header_adds {inArray : Bool} {context context' : Key} (hname : k.Named)
    (hs : step (d, context) (if inArray then .tables k else .table k) = .ok (d', context')) :
    context' = k ∧ (Proper deep [(k, if inArray then .tables else .table)] →
      Ready deep [(k, if inArray then .tables else .table)] d →
        Adds deep [(k, if inArray then .tables else .table)] d d') := by
  have hne : k ≠ [] := by
    rintro rfl
    exact hname rfl
  obtain ⟨d₁, hopen, heq⟩ := step_header.mp hs
  cases heq
  refine ⟨rfl, fun hproper hready => ?_⟩
  have hopened := openTable_adds hne rfl hproper hready hopen
  have htyped : Adds deep [(k, if inArray then .tables else .table)] d (d₁.typed k [] false) := by
    refine hopened.typed hready List.mem_cons_self (fun k₀ vs hmem => ?_) (by simp [typedKey, hne])
    cases inArray <;> simp at hmem
  exact htyped.confined (.of_eq htyped.grows.sound rfl rfl)

theorem statements_adds {ss : List Statement} {context : Key} {x : Document × Key}
    (hproper : Proper deep (items context ss)) (hready : Ready deep (items context ss) d)
    (hnamed : ∀ k ∈ keys context ss, k.Named) (hss : ss.foldlM step (d, context) = .ok x) :
    Adds deep (items context ss) d x.1 := by
  induction ss generalizing d context with
  | nil =>
    cases hss
    exact ⟨.refl hready.sound, nofun⟩
  | cons s ss ih =>
    rw [List.foldlM_cons, bind_ok] at hss
    obtain ⟨⟨d₁, context'⟩, hs, hss⟩ := hss
    -- The statement adds its own items, and the others follow.
    suffices hfirst : ∃ I, items context (s :: ss) = I ++ items context' ss ∧
        keys context' ss ⊆ keys context (s :: ss) ∧
        (Proper deep I → Ready deep I d → Adds deep I d d₁) by
      obtain ⟨I, hsplit, hkeys, hadds⟩ := hfirst
      rw [hsplit] at hproper hready ⊢
      have hadds := hadds hproper.left hready.left
      exact hadds.append hproper (ih hproper.right (.after hproper hready hadds)
        (fun k hk => hnamed k (hkeys hk)) hss)
    have hheader (k : Key) (inArray : Bool) (hname : k.Named)
        (hs : step (d, context) (if inArray then .tables k else .table k) = .ok (d₁, context')) :
        context' = k ∧ (Proper deep [(k, if inArray then .tables else .table)] →
          Ready deep [(k, if inArray then .tables else .table)] d →
            Adds deep [(k, if inArray then .tables else .table)] d d₁) := header_adds hname hs
    cases s with
    | table k =>
      obtain ⟨rfl, hadds⟩ := hheader k false (hnamed k List.mem_cons_self) hs
      exact ⟨[_], rfl, List.subset_cons_self _ _, hadds⟩
    | tables k =>
      obtain ⟨rfl, hadds⟩ := hheader k true (hnamed k List.mem_cons_self) hs
      exact ⟨[_], rfl, List.subset_cons_self _ _, hadds⟩
    | assign key v =>
      obtain ⟨d₂, hassign, heq⟩ := step_assign.mp hs
      cases heq
      exact ⟨(Entries.cons key v .nil).items context, rfl, List.subset_append_right _ _,
        fun hproper hready => entries_adds _ hproper hready
          (fun k hk => hnamed k (List.mem_append_left _ hk)) hassign⟩

/-- A document holds what its text defines, if that is orderly. -/
theorem ofStatements_adds {ss : List Statement} (hss : ofStatements ss = .ok d)
    (horderly : Orderly (items [] ss)) (hnamed : ∀ k ∈ keys [] ss, k.Named) :
    Adds (InTables (items [] ss)) (items [] ss) empty d := by
  obtain ⟨context, hfold⟩ := ofStatements_ok.mp hss
  have hproper : Proper (InTables (items [] ss)) (items [] ss) :=
    ⟨fun p q ⟨r, hr, hp⟩ hpre => ⟨r, hr, hp.trans hpre⟩, fun k hk p hp => ⟨k, hk, hp⟩, horderly⟩
  exact statements_adds hproper ⟨sound_empty, nofun, nofun⟩ hnamed hfold

-- --------------------------------------------------------------------
-- Listed keys

mutual
theorem plant_listed (k : Key) (d : Document) : ∀ v : Value, (plant k d v).listed = d.listed
  | .inline es => by
    rw [plant, plantAll_listed k _ es]
    rfl
  | .string _ | .integer _ | .float | .boolean _ | .datetime | .array _ => by
    rw [plant]
    · rfl
    all_goals exact nofun
theorem plantAll_listed (k : Key) (d : Document) :
    ∀ es : Entries, (plantAll k d es).listed = d.listed
  | .nil => by rw [plantAll]
  | .cons key v rest => by rw [plantAll, plantAll_listed k _ rest, plant_listed _ d v]
end

theorem define_listed (hd : d.define k v = .ok d') : d'.listed = d.listed := by
  obtain ⟨-, ⟨rfl, -⟩ | ⟨rfl, -⟩ | ⟨rfl, -⟩⟩ := define_ok hd
  · exact plant_listed k d v
  · exact plant_listed k _ v
  · rfl

theorem makeParents_listed (hd : d.makeParents k = .ok d') : d'.listed = d.listed := by
  unfold makeParents at hd
  generalize parents k = ps at hd
  induction ps generalizing d with
  | nil => cases hd; rfl
  | cons p ps ih =>
    rw [List.foldlM_cons, bind_ok] at hd
    obtain ⟨d₁, hp, hps⟩ := hd
    rw [ih hps]
    split at hp <;> cases hp <;> rfl

theorem openTable_listed {inArray : Bool} (hd : d.openTable k inArray = .ok d') :
    d'.listed = d.listed := by
  rw [openTable, bind_ok] at hd
  obtain ⟨d₁, hd₁, hd⟩ := hd
  rw [← makeParents_listed hd₁]
  split at hd
  · split at hd <;> cases hd <;> rfl
  · exact define_listed hd

theorem enter_listed {context : Key} {parts : List Bytes} (hd : d.enter context parts = .ok d') :
    d'.listed = d.listed := by
  induction parts generalizing d context with
  | nil => cases hd; rfl
  | cons part parts ih =>
    rw [enter, bind_ok] at hd
    obtain ⟨d₁, hopen, hd⟩ := hd
    rw [ih hd, openTable_listed hopen]
    rfl

mutual
theorem evaluate_listed {context : Key} {name : Bytes} {inArray : Bool} {d d' : Document} :
    ∀ v : Value, evaluate context name inArray v d = .ok d' →
      d'.listed = d.listed ++ v.keys (context ++ [name])
  | .array vs, hd => by
    rw [evaluate] at hd
    exact evaluateAll_listed (d := d.typed context name true) vs hd
  | .inline es, hd => by
    obtain ⟨d₁, hopen, hd⟩ := evaluate_inline.mp hd
    rw [assignAll_listed es hd, openTable_listed hopen]
    rfl
  | .string _, hd | .integer _, hd | .float, hd | .boolean _, hd | .datetime, hd => by
    rw [evaluate] at hd
    · cases hd
      simp [Value.keys]
    all_goals exact nofun
theorem evaluateAll_listed {context : Key} {name : Bytes} {d d' : Document} :
    ∀ vs : Values, evaluateAll context name vs d = .ok d' →
      d'.listed = d.listed ++ vs.keys (context ++ [name])
  | .nil, hd => by
    rw [evaluateAll] at hd
    cases hd
    simp [Values.keys]
  | .cons v vs, hd => by
    obtain ⟨d₁, hv, hd⟩ := evaluateAll_cons.mp hd
    rw [evaluateAll_listed vs hd, evaluate_listed v hv, Values.keys, List.append_assoc]
theorem assignAll_listed {context : Key} {d d' : Document} :
    ∀ es : Entries, assignAll context es d = .ok d' → d'.listed = d.listed ++ es.keys context
  | .nil, hd => by
    rw [assignAll] at hd
    cases hd
    simp [Entries.keys]
  | .cons key v rest, hd => by
    obtain ⟨d₁, d₂, d₃, henter, hv, hdefine, hd⟩ := assignAll_cons.mp hd
    have hlisted : d₃.listed = d.listed ++ context.inside key :: v.keys (context.inside key) := by
      rw [define_listed hdefine, evaluate_listed v hv, list, enter_listed henter,
        List.append_assoc]
      rfl
    rw [assignAll_listed rest hd, typed, hlisted, Entries.keys, List.append_assoc]
    rfl
end

theorem foldlM_step_listed {ss : List Statement} {context : Key} {x : Document × Key}
    (hss : ss.foldlM step (d, context) = .ok x) : x.1.listed = d.listed ++ keys context ss := by
  induction ss generalizing d context with
  | nil =>
    cases hss
    simp [keys]
  | cons s ss ih =>
    rw [List.foldlM_cons, bind_ok] at hss
    obtain ⟨⟨d₁, context'⟩, hs, hss⟩ := hss
    have hheader (k : Key) (inArray : Bool)
        (hs : step (d, context) (if inArray then .tables k else .table k) = .ok (d₁, context')) :
        x.1.listed = d.listed ++ k :: keys k ss := by
      obtain ⟨d₂, hopen, heq⟩ := step_header.mp hs
      cases heq
      rw [ih hss, list, typed, openTable_listed hopen]
      simp
    cases s with
    | table k => exact hheader k false hs
    | tables k => exact hheader k true hs
    | assign key v =>
      obtain ⟨d₂, hassign, heq⟩ := step_assign.mp hs
      cases heq
      rw [ih hss, assignAll_listed _ hassign, keys, List.append_assoc]

theorem ofStatements_listed {ss : List Statement} (hss : ofStatements ss = .ok d) :
    d.listed = keys [] ss := by
  obtain ⟨context, hfold⟩ := ofStatements_ok.mp hss
  exact (foldlM_step_listed hfold).trans (List.nil_append _)

end Document

end Restyler.Toml
