import Restyler.Proofs.Disk
import Restyler.Proofs.Items

/-!
# How a document grows

Putting an entry at a key takes away what was there and below. So an operation on a document is
described by the keys at which something may get lost or an array may be noted, and by the entries
that may be new. A document keeps one entry for a key, and each table that a key is in.
-/

namespace Restyler

/-- Without a key twice, a map has an entry exactly if it is listed. -/
theorem Assoc.get?_eq_some_iff_of_nodup {κ α : Type} [DecidableEq κ] {k : κ} {v : α}
    {m : List (κ × α)} (h : (m.map Prod.fst).Nodup) : get? k m = some v ↔ (k, v) ∈ m := by
  induction m with
  | nil => simp [get?]
  | cons p m ih =>
    obtain ⟨k', v'⟩ := p
    rw [List.map_cons, List.nodup_cons] at h
    obtain ⟨hnew, hm⟩ := h
    rw [get?, List.mem_cons, Prod.mk.injEq]
    split
    · next heq =>
      subst heq
      have hmem : (k', v) ∉ m := fun hmem => hnew (List.mem_map.mpr ⟨_, hmem, rfl⟩)
      simp [hmem, eq_comm]
    · next hne => rw [ih hm, or_iff_right fun hk => hne hk.1.symm]

namespace Toml

namespace Document

variable {d d' d'' : Document} {k : Key} {e : Entry} {v : Value}

-- --------------------------------------------------------------------
-- Sound documents

theorem get?_put (d : Document) (k k' : Key) (e : Entry) :
    (d.put k e).get? k' = if k' = k then some e else if k <+: k' then none else d.get? k' := by
  obtain ⟨entries, listed, arrays, implied⟩ := d
  simp only [get?, put]
  induction entries with
  | nil => simp [Assoc.get?, eq_comm]
  | cons p m ih =>
    obtain ⟨k'', e''⟩ := p
    rw [List.filter_cons]
    by_cases hk : k <+: k''
    · rw [if_neg (by simpa using hk), ih, Assoc.get?]
      by_cases heq : k'' = k'
      · subst heq
        simp [hk]
      · simp [heq]
    · rw [if_pos (by simpa [List.isPrefixOf_iff_prefix, ← Bool.not_eq_true] using hk),
        List.cons_append, Assoc.get?, Assoc.get?, ih]
      by_cases heq : k'' = k'
      · subst heq
        have hne : k'' ≠ k := fun h => hk (h ▸ List.prefix_refl _)
        simp [hk, hne]
      · simp [heq]

theorem get?_isSome_of_isOpen (h : d.isOpen k = true) : (d.get? k).isSome := by
  unfold isOpen at h
  split at h <;> simp_all

theorem mem_parents {p : Key} : p ∈ parents k ↔ p ≠ [] ∧ p <+: k ∧ p ≠ k := by
  simp only [parents, List.mem_map, List.mem_range]
  constructor
  · rintro ⟨n, hn, rfl⟩
    refine ⟨?_, List.take_prefix _ _, fun h => ?_⟩
    · have : k ≠ [] := by
        rintro rfl
        simp at hn
      simpa using this
    · have := congrArg List.length h
      simp at this
      omega
  · rintro ⟨hne, hpre, hneq⟩
    have hlt : p.length < k.length :=
      Nat.lt_of_le_of_ne hpre.length_le fun h => hneq (hpre.eq_of_length h)
    have hpos : 0 < p.length := List.length_pos_iff.mpr hne
    refine ⟨p.length - 1, by omega, ?_⟩
    rw [Nat.sub_add_cancel hpos]
    exact (List.prefix_iff_eq_take.mp hpre).symm

/-- There is one entry for a key, and one for each table that it is in. -/
structure Sound (d : Document) : Prop where
  distinct : (d.entries.map Prod.fst).Nodup
  closed : ∀ k, (d.get? k).isSome → ∀ p ∈ parents k, (d.get? p).isSome

theorem sound_empty : empty.Sound := ⟨List.nodup_nil, nofun⟩

namespace Sound

theorem get?_eq_some_iff (h : d.Sound) : d.get? k = some e ↔ (k, e) ∈ d.entries :=
  Assoc.get?_eq_some_iff_of_nodup h.distinct

theorem put (h : d.Sound) (hparents : ∀ p ∈ parents k, (d.get? p).isSome) :
    (d.put k e).Sound where
  distinct := by
    rw [Document.put, List.map_append, List.nodup_append]
    refine ⟨h.distinct.sublist (List.filter_sublist.map _), by simp, ?_⟩
    intro k' hk' k'' hk'' heq
    obtain ⟨p, hp, rfl⟩ := List.mem_map.mp hk'
    obtain rfl : k'' = k := by simpa using hk''
    obtain rfl := heq
    simpa [← Bool.not_eq_true, List.isPrefixOf_iff_prefix] using (List.mem_filter.mp hp).2
  closed k' hk' p hp := by
    obtain ⟨hne, hpre, hneq⟩ := mem_parents.mp hp
    rw [get?_put] at hk' ⊢
    split
    · rfl
    next hpk =>
    have hk : ¬ k <+: p := by
      intro hk
      split at hk'
      · next heq =>
        subst heq
        exact hneq (hpre.eq_of_length (Nat.le_antisymm hpre.length_le hk.length_le))
      · rw [if_pos (hk.trans hpre)] at hk'
        cases hk'
    rw [if_neg hk]
    split at hk'
    · next heq =>
      subst heq
      exact hparents p hp
    split at hk'
    · cases hk'
    · exact h.closed k' hk' p hp

/-- What has no entry has none below. -/
theorem get?_eq_none (h : d.Sound) (hne : k ≠ []) (hnone : d.get? k = none) {k' : Key}
    (hpre : k <+: k') : d.get? k' = none := by
  by_cases heq : k = k'
  · rwa [← heq]
  by_contra hsome
  have := h.closed k' (Option.isSome_iff_ne_none.mpr hsome) k (mem_parents.mpr ⟨hne, hpre, heq⟩)
  simp [hnone] at this

end Sound

-- --------------------------------------------------------------------
-- Growth

/-- What an operation does to a document: a key may lose its entry or its note only if it is
`loose`, and an entry that is there afterwards was there before or is `new`. -/
structure Grows (loose : Key → Prop) (new : Key → Entry → Prop) (d d' : Document) : Prop where
  sound : d'.Sound
  kept : ∀ k e, d.get? k = some e → ¬ loose k → d'.get? k = some e
  origin : ∀ k e, d'.get? k = some e → d.get? k = some e ∨ new k e
  noted : ∀ k ∈ d'.arrays, k ∈ d.arrays ∨ loose k
  retained : ∀ k ∈ d.arrays, k ∈ d'.arrays ∨ loose k

/-- The key that `typed` makes a note about. -/
def typedKey (context : Key) (name : Bytes) : Key :=
  if name ≠ [] then context ++ [name] else if context = [] then [[]] else context

theorem mem_typed {context : Key} {name : Bytes} {isArray : Bool} :
    k ∈ (d.typed context name isArray).arrays ↔
      k = typedKey context name ∧ isArray = true ∨ k ∈ d.arrays ∧ k ≠ typedKey context name := by
  have heq : (d.typed context name isArray).arrays =
      if isArray then typedKey context name :: d.arrays.filter (· ≠ typedKey context name)
      else d.arrays.filter (· ≠ typedKey context name) := rfl
  rw [heq]
  split <;> simp_all

namespace Grows

variable {loose : Key → Prop} {new : Key → Entry → Prop}

theorem of_eq (h : d.Sound) (he : d'.entries = d.entries) (ha : d'.arrays = d.arrays) :
    Grows loose new d d' := by
  have hget : d'.get? = d.get? := by
    funext k
    rw [get?, he, get?]
  refine ⟨⟨he ▸ h.distinct, by rw [hget]; exact h.closed⟩, fun k e hk _ => ?_, fun k e hk => ?_,
    fun k hk => .inl (ha ▸ hk), fun k hk => .inl (ha ▸ hk)⟩
  · rwa [hget]
  · rw [hget] at hk
    exact .inl hk

theorem refl (h : d.Sound) : Grows loose new d d := of_eq h rfl rfl

theorem trans (h : Grows loose new d d') (h' : Grows loose new d' d'') :
    Grows loose new d d'' where
  sound := h'.sound
  kept k e hk hloose := h'.kept k e (h.kept k e hk hloose) hloose
  origin k e hk := (h'.origin k e hk).elim (h.origin k e) .inr
  noted k hk := (h'.noted k hk).elim (h.noted k) .inr
  retained k hk := (h.retained k hk).elim (h'.retained k) .inr

/-- A note that is there already changes nothing. -/
theorem typed (h : d.Sound) {context : Key} {name : Bytes} {isArray : Bool}
    (hkey : loose (typedKey context name) ∨ (isArray = true ↔ typedKey context name ∈ d.arrays)) :
    Grows loose new d (d.typed context name isArray) where
  sound := ⟨h.distinct, h.closed⟩
  kept _ _ hk _ := hk
  origin _ _ hk := .inl hk
  noted k hk := by
    rcases mem_typed.mp hk with ⟨rfl, harray⟩ | ⟨hk, -⟩
    · exact hkey.symm.imp_left fun h => h.mp harray
    · exact .inl hk
  retained k hk := by
    by_cases heq : k = typedKey context name
    · subst heq
      exact hkey.symm.imp_left fun h => mem_typed.mpr (.inl ⟨rfl, h.mpr hk⟩)
    · exact .inl (mem_typed.mpr (.inr ⟨hk, heq⟩))

/-- Putting an entry loses nothing if there was none, and nothing but what is below if the entry was
there already. -/
theorem put (h : d.Sound) (hne : k = [] → ∀ p, loose p)
    (hparents : ∀ p ∈ parents k, (d.get? p).isSome)
    (hlost : d.get? k = none ∨ d.get? k = some e ∧ (∀ p, k <+: p → p ≠ k → loose p) ∨
      ∀ p, k <+: p → loose p)
    (hnew : new k e) : Grows loose new d (d.put k e) where
  sound := h.put hparents
  kept k' e' hk' hloose := by
    rw [get?_put]
    split
    · next heq =>
      subst heq
      rcases hlost with hnone | ⟨hsome, -⟩ | hall
      · rw [hnone] at hk'
        cases hk'
      · rw [← hsome, hk']
      · exact absurd (hall _ (List.prefix_refl _)) hloose
    next hneq =>
    split
    · next hpre =>
      rcases hlost with hnone | ⟨-, hbelow⟩ | hall
      · rw [h.get?_eq_none (fun heq => hloose (hne heq k')) hnone hpre] at hk'
        cases hk'
      · exact absurd (hbelow k' hpre hneq) hloose
      · exact absurd (hall k' hpre) hloose
    · exact hk'
  origin k' e' hk' := by
    rw [get?_put] at hk'
    split at hk'
    · next heq =>
      cases hk'
      exact .inr (heq ▸ hnew)
    split at hk'
    · cases hk'
    · exact .inl hk'
  noted _ hk := .inl hk
  retained _ hk := .inl hk

theorem mono (h : Grows loose new d d') {loose' : Key → Prop} {new' : Key → Entry → Prop}
    (hloose : ∀ k, loose k → loose' k) (hnew : ∀ k e, new k e → new' k e) :
    Grows loose' new' d d' where
  sound := h.sound
  kept k e hk hnot := h.kept k e hk fun hk' => hnot (hloose k hk')
  origin k e hk := (h.origin k e hk).imp_right (hnew k e)
  noted k hk := (h.noted k hk).imp_right (hloose k)
  retained k hk := (h.retained k hk).imp_right (hloose k)

theorem isSome (h : Grows loose new d d') (hk : (d.get? k).isSome) (hnot : ¬ loose k) :
    (d'.get? k).isSome := by
  obtain ⟨e, he⟩ := Option.isSome_iff_exists.mp hk
  simp [h.kept k e he hnot]

end Grows

-- --------------------------------------------------------------------
-- Tables

theorem Sound.parents_concat (h : d.Sound) (hk : k ≠ [] → (d.get? k).isSome) {part : Bytes} :
    ∀ p ∈ parents (k ++ [part]), (d.get? p).isSome := by
  intro p hp
  obtain ⟨hne, hpre, hneq⟩ := mem_parents.mp hp
  have hpk : p <+: k := (List.prefix_concat_iff.mp hpre).resolve_left hneq
  have hk : (d.get? k).isSome := hk fun hnil => hne (List.prefix_nil.mp (hnil ▸ hpk))
  by_cases heq : p = k
  · exact heq ▸ hk
  · exact h.closed k hk p (mem_parents.mpr ⟨hne, hpk, heq⟩)

mutual
theorem plant_grows {d : Document} {k : Key} (h : d.Sound) (hne : k ≠ [])
    (hparents : ∀ p ∈ parents k, (d.get? p).isSome) :
    ∀ v : Value, Grows (k <+: ·) (fun p _ => k <+: p) d (plant k d v)
  | .inline es => by
    rw [plant]
    have hput : Grows (k <+: ·) (fun p _ => k <+: p) d (d.put k .table) :=
      .put h (absurd · hne) hparents (.inr (.inr fun _ => id)) (List.prefix_refl _)
    have hk : ((d.put k .table).get? k).isSome := by simp [get?_put]
    have hall := plantAll_grows hput.sound hk es
    exact hput.trans (hall.mono (fun _ => And.left) fun _ _ => And.left)
  | .string _ | .integer _ | .float | .boolean _ | .datetime | .array _ => by
    rw [plant]
    · exact .put h (absurd · hne) hparents (.inr (.inr fun _ => id)) (List.prefix_refl _)
    all_goals exact nofun
theorem plantAll_grows {d : Document} {k : Key} (h : d.Sound) (hk : (d.get? k).isSome) :
    ∀ es : Entries, Grows (Below k) (fun p _ => Below k p) d (plantAll k d es)
  | .nil => by
    rw [plantAll]
    exact .refl h
  | .cons key v rest => by
    rw [plantAll]
    have hbelow := below_concat k (key.getLast?.getD [])
    have hv : Grows (Below k) (fun p _ => Below k p) d (plant (k ++ [key.getLast?.getD []]) d v) :=
      (plant_grows h (List.concat_ne_nil _ k) (h.parents_concat fun _ => hk) v).mono
        (fun _ => hbelow.trans) fun _ _ => hbelow.trans
    exact hv.trans (plantAll_grows hv.sound (hv.isSome hk fun h => h.2 rfl) rest)
end

theorem parents_concat (hne : k ≠ []) (part : Bytes) :
    parents (k ++ [part]) = parents k ++ [k] := by
  have hlength : k.length = (k.length - 1) + 1 :=
    (Nat.sub_add_cancel (List.length_pos_iff.mpr hne)).symm
  rw [parents, List.length_append, List.length_singleton, Nat.add_sub_cancel, hlength,
    List.range_succ, List.map_append, List.map_singleton, ← hlength, List.take_left', parents]
  · congr 1
    refine List.map_congr_left fun n hn => ?_
    have := List.mem_range.mp hn
    exact List.take_append_of_le_length (by omega)
  · rfl

theorem makeParents_grows (h : d.Sound) (hd : d.makeParents k = .ok d') :
    Grows (fun _ => False) (fun p e => Below p k ∧ e = .table) d d' ∧
      ∀ p ∈ parents k, (d'.get? p).isSome := by
  induction k using List.reverseRecOn generalizing d' with
  | nil =>
    cases hd
    exact ⟨.refl h, nofun⟩
  | append_singleton k part ih =>
    by_cases hne : k = []
    · subst hne
      cases hd
      exact ⟨.refl h, nofun⟩
    rw [makeParents, parents_concat hne, List.foldlM_append, bind_ok] at hd
    obtain ⟨d₁, hparents, hd⟩ := hd
    obtain ⟨hgrows, hopen⟩ := ih hparents
    have hgrows : Grows (fun _ => False) (fun p e => Below p (k ++ [part]) ∧ e = .table) d d₁ :=
      hgrows.mono (fun _ => id) fun p e hp => ⟨hp.1.trans (List.prefix_append _ _), hp.2⟩
    -- The last of the parents has its own parents by now.
    have hlast : Grows (fun _ => False) (fun p e => Below p (k ++ [part]) ∧ e = .table) d₁ d' ∧
        (d'.get? k).isSome := by
      rw [List.foldlM_cons, bind_ok] at hd
      obtain ⟨d₂, hk, hd⟩ := hd
      cases hd
      split at hk
      · next hnone =>
        cases hk
        have himply : Grows (fun _ => False) (fun p e => Below p (k ++ [part]) ∧ e = .table) d₁
            (d₁.imply k) := .of_eq hgrows.sound rfl rfl
        refine ⟨himply.trans ?_, by simp [get?_put]⟩
        exact .put himply.sound (absurd · hne) hopen (.inl hnone) ⟨below_concat k part, rfl⟩
      · cases hk
      · next hsome =>
        cases hk
        exact ⟨.refl hgrows.sound, by simp [hsome]⟩
    refine ⟨hgrows.trans hlast.1, fun p hp => ?_⟩
    rw [parents_concat hne, List.mem_append, List.mem_singleton] at hp
    rcases hp with hp | rfl
    · exact hlast.1.isSome (hopen p hp) nofun
    · exact hlast.2

theorem define_ok (hd : d.define k v = .ok d') :
    (∀ p ∈ parents k, (d.get? p).isSome) ∧
      (d' = plant k d v ∧ d.get? k = none ∨
        d' = plant k (d.name k) v ∧ (d.get? k).isSome ∧ k ∈ d.arrays ∨
        d' = d.name k ∧ (d.get? k).isSome ∧ k ∉ d.arrays) := by
  unfold define at hd
  split at hd
  · cases hd
  next hopen =>
  refine ⟨fun p hp => get?_isSome_of_isOpen ?_, ?_⟩
  · have hall : (parents k).all d.isOpen = true := by simpa using hopen
    exact List.all_eq_true.mp hall p hp
  split at hd
  · next hnone =>
    cases hd
    exact .inl ⟨rfl, Option.isNone_iff_eq_none.mp hnone⟩
  next hsome =>
  have hsome : (d.get? k).isSome := by simpa [Option.isSome_iff_ne_none] using hsome
  split at hd
  · next harray =>
    cases hd
    exact .inr (.inl ⟨rfl, hsome, by simpa using harray⟩)
  next harray =>
  split at hd
  · cases hd
    exact .inr (.inr ⟨rfl, hsome, by simpa using harray⟩)
  · cases hd

/-- A table that is opened in an array of tables replaces the last one; another one is new or was
noted as an array. -/
theorem openTable_grows {inArray : Bool} {loose : Key → Prop} {new : Key → Entry → Prop}
    (h : d.Sound) (hne : k = [] → ∀ p, loose p) (hd : d.openTable k inArray = .ok d')
    (hparents : ∀ p, Below p k → new p .table) (hnew : new k (if inArray then .tables else .table))
    (hloose : if inArray then ∀ p, Below k p → loose p
      else k ∈ d.arrays → ∀ p, k <+: p → loose p) :
    Grows loose new d d' ∧ ∃ e, d'.get? k = some e ∧ (inArray = true → e = .tables) := by
  rw [openTable, bind_ok] at hd
  obtain ⟨d₁, hd₁, hd⟩ := hd
  obtain ⟨hgrows, hopen⟩ := makeParents_grows h hd₁
  have hfirst : Grows loose new d d₁ := by
    refine hgrows.mono (fun _ => False.elim) ?_
    rintro p e ⟨hp, rfl⟩
    exact hparents p hp
  suffices hput : Grows loose new d₁ d' ∧ ∃ e, d'.get? k = some e ∧ (inArray = true → e = .tables)
    from ⟨hfirst.trans hput.1, hput.2⟩
  split at hd
  · next hin =>
    rw [if_pos hin] at hnew hloose
    split at hd
    · next hnone =>
      cases hd
      exact ⟨.put hfirst.sound hne hopen (.inl hnone) hnew, .tables, by simp [get?_put],
        fun _ => rfl⟩
    · next htables =>
      cases hd
      exact ⟨.put hfirst.sound hne hopen
        (.inr (.inl ⟨htables, fun p hpre hneq => hloose p ⟨hpre, hneq⟩⟩)) hnew,
        .tables, by simp [get?_put], fun _ => rfl⟩
    · cases hd
  · next hin =>
    rw [if_neg hin] at hnew hloose
    obtain ⟨-, ⟨rfl, hnone⟩ | ⟨rfl, -, harray⟩ | ⟨rfl, hsome, -⟩⟩ := define_ok hd
    · exact ⟨.put hfirst.sound hne hopen (.inl hnone) hnew, .table,
        by simp [plant, plantAll, get?_put], (absurd · hin)⟩
    · have harray : k ∈ d.arrays := (hgrows.noted k harray).resolve_right id
      have hname : Grows loose new d₁ (d₁.name k) := .of_eq hfirst.sound rfl rfl
      exact ⟨hname.trans (.put hname.sound hne hopen (.inr (.inr (hloose harray))) hnew), .table,
        by simp [plant, plantAll, get?_put], (absurd · hin)⟩
    · obtain ⟨e, he⟩ := Option.isSome_iff_exists.mp hsome
      exact ⟨.of_eq hfirst.sound rfl rfl, e, he, (absurd · hin)⟩

theorem enter_grows {context : Key} {parts : List Bytes} {loose : Key → Prop}
    {new : Key → Entry → Prop} (h : d.Sound) (hd : d.enter context parts = .ok d')
    (hnew : ∀ p, p <+: context ++ parts → new p .table)
    (hup : ∀ p q, loose p → p <+: q → loose q)
    (hloose : ∀ p ∈ d.arrays, Below context p → p <+: context ++ parts → loose p) :
    Grows loose new d d' := by
  induction parts generalizing d context with
  | nil =>
    cases hd
    exact .refl h
  | cons part parts ih =>
    rw [enter, bind_ok] at hd
    obtain ⟨d₁, hopen, hd⟩ := hd
    have hsplit : context ++ part :: parts = (context ++ [part]) ++ parts := by simp
    have hpre : context ++ [part] <+: context ++ part :: parts := hsplit ▸ List.prefix_append _ _
    have himply : Grows loose new d (d.imply (context ++ [part])) := .of_eq h rfl rfl
    have hfirst : Grows loose new d d₁ := by
      refine himply.trans (openTable_grows himply.sound (absurd · (List.concat_ne_nil _ _)) hopen
        (fun p hp => hnew p (hp.1.trans hpre)) (hnew _ hpre) ?_).1
      exact fun harray p => hup _ p (hloose _ harray (below_concat _ _) hpre)
    refine hfirst.trans (ih hfirst.sound hd (hsplit ▸ hnew) fun p harray hbelow hp => ?_)
    rcases hfirst.noted p harray with harray | hloose'
    · exact hloose p harray ((below_concat _ _).trans hbelow.1) (hsplit ▸ hp)
    · exact hloose'

-- --------------------------------------------------------------------
-- Evaluation

section

variable {context key : Key} {name : Bytes} {inArray : Bool}

theorem evaluate_inline {es : Entries} :
    evaluate context name inArray (.inline es) d = .ok d' ↔
      ∃ d₁, (d.imply (context ++ [name])).openTable (context ++ [name]) inArray = .ok d₁ ∧
        assignAll (context ++ [name]) es d₁ = .ok d' := by
  rw [evaluate]
  split <;> simp_all

theorem evaluateAll_cons {vs : Values} :
    evaluateAll context name (.cons v vs) d = .ok d' ↔
      ∃ d₁, evaluate context name true v d = .ok d₁ ∧ evaluateAll context name vs d₁ = .ok d' := by
  rw [evaluateAll]
  split <;> simp_all

/-- The tables that a key leads through are entered, the key is listed, its value is evaluated and
put there, and it is noted whether that is an array. -/
theorem assignAll_cons {rest : Entries} :
    assignAll context (.cons key v rest) d = .ok d' ↔
      ∃ d₁ d₂ d₃, d.enter context key.dropLast = .ok d₁ ∧
        evaluate (context ++ key.dropLast) (key.getLast?.getD []) false v
          (d₁.list (context.inside key)) = .ok d₂ ∧
        d₂.define (context.inside key) v = .ok d₃ ∧
        assignAll context rest
          (d₃.typed (context ++ key.dropLast) (key.getLast?.getD []) v.isArray) = .ok d' := by
  rw [assignAll]
  split
  · simp_all
  next d₁ henter =>
  simp only [henter, Except.ok.injEq, exists_and_left, exists_eq_left', Key.inside]
  split
  · simp_all
  next d₂ hv =>
  simp only [hv, Except.ok.injEq, exists_eq_left']
  split <;> simp_all

end

-- --------------------------------------------------------------------
-- Inside arrays

/-- Below a key anything may happen, and the key may get another entry. -/
structure Free (loose : Key → Prop) (new : Key → Entry → Prop) (k : Key) : Prop where
  up : ∀ p q, loose p → p <+: q → loose q
  below : ∀ p, Below k p → loose p
  entry : ∀ p e, k <+: p → new p e
  above : ∀ p, Below p k → new p .table

theorem Free.of_isPrefix {loose : Key → Prop} {new : Key → Entry → Prop} (h : Free loose new k)
    {k' : Key} (hpre : k <+: k') : Free loose new k' where
  up := h.up
  below p hp := h.below p (hp.of_isPrefix hpre)
  entry p e hp := h.entry p e (hpre.trans hp)
  above p hp := by
    rcases List.prefix_or_prefix_of_prefix hp.1 hpre with hpk | hkp
    · by_cases heq : p = k
      · exact heq ▸ h.entry k .table (List.prefix_refl _)
      · exact h.above p ⟨hpk, Ne.symm heq⟩
    · exact h.entry p .table hkp

variable {loose : Key → Prop} {new : Key → Entry → Prop}

mutual
theorem evaluate_grows {context : Key} {name : Bytes} {inArray : Bool} {d d' : Document}
    (hfree : Free loose new (context ++ [name])) (h : d.Sound)
    (hkey : inArray = true ∨ loose (context ++ [name]))
    (hnote : loose (typedKey context name) ∨ typedKey context name ∈ d.arrays) :
    ∀ v : Value, ((∃ p, ¬ loose p) → ∀ k ∈ v.keys (context ++ [name]), k.Named) →
      evaluate context name inArray v d = .ok d' → Grows loose new d d'
  | .array vs, hnamed, hd => by
    rw [evaluate] at hd
    have htyped : Grows loose new d (d.typed context name true) :=
      .typed h (hnote.imp_right fun harray => ⟨fun _ => harray, fun _ => rfl⟩)
    exact htyped.trans (evaluateAll_grows hfree htyped.sound
      (.inr (mem_typed.mpr (.inl ⟨rfl, rfl⟩))) vs hnamed hd)
  | .inline es, hnamed, hd => by
    obtain ⟨d₁, hopen, hd⟩ := evaluate_inline.mp hd
    have himply : Grows loose new d (d.imply (context ++ [name])) := .of_eq h rfl rfl
    have hfirst : Grows loose new d d₁ := by
      refine himply.trans (openTable_grows himply.sound (absurd · (List.concat_ne_nil _ _)) hopen
        hfree.above (hfree.entry _ _ (List.prefix_refl _)) ?_).1
      split
      · exact hfree.below
      · next hin => exact fun _ p => hfree.up _ p (hkey.resolve_left hin)
    exact hfirst.trans (assignAll_grows hfree hfirst.sound es hnamed hd)
  | .string _, _, hd | .integer _, _, hd | .float, _, hd | .boolean _, _, hd
  | .datetime, _, hd => by
    rw [evaluate] at hd
    · cases hd
      exact .refl h
    all_goals exact nofun
theorem evaluateAll_grows {context : Key} {name : Bytes} {d d' : Document}
    (hfree : Free loose new (context ++ [name])) (h : d.Sound)
    (hnote : loose (typedKey context name) ∨ typedKey context name ∈ d.arrays) :
    ∀ vs : Values, ((∃ p, ¬ loose p) → ∀ k ∈ vs.keys (context ++ [name]), k.Named) →
      evaluateAll context name vs d = .ok d' → Grows loose new d d'
  | .nil, _, hd => by
    rw [evaluateAll] at hd
    cases hd
    exact .refl h
  | .cons v vs, hnamed, hd => by
    obtain ⟨d₁, hv, hd⟩ := evaluateAll_cons.mp hd
    have hfirst : Grows loose new d d₁ := evaluate_grows hfree h (.inl rfl) hnote v
      (fun hp k hk => hnamed hp k (List.mem_append_left _ hk)) hv
    refine hfirst.trans (evaluateAll_grows hfree hfirst.sound ?_ vs
      (fun hp k hk => hnamed hp k (List.mem_append_right _ hk)) hd)
    exact hnote.elim .inl fun harray => (hfirst.retained _ harray).symm
theorem assignAll_grows {context : Key} {d d' : Document} (hfree : Free loose new context)
    (h : d.Sound) :
    ∀ es : Entries, ((∃ p, ¬ loose p) → ∀ k ∈ es.keys context, k.Named) →
      assignAll context es d = .ok d' → Grows loose new d d'
  | .nil, _, hd => by
    rw [assignAll] at hd
    cases hd
    exact .refl h
  | .cons key v rest, hnamed, hd => by
    have hbelow : Below context (context.inside key) := below_inside context key
    have hloose : loose (context.inside key) := hfree.below _ hbelow
    have hnote : loose (typedKey (context ++ key.dropLast) (key.getLast?.getD [])) := by
      by_contra hnot
      have hname : key.getLast?.getD [] ≠ [] := by
        simpa [Key.Named, Key.inside] using hnamed ⟨_, hnot⟩ _ List.mem_cons_self
      rw [typedKey, if_pos hname] at hnot
      exact hnot hloose
    obtain ⟨d₁, d₂, d₃, henter, hv, hdefine, hd⟩ := assignAll_cons.mp hd
    have h₁ : Grows loose new d d₁ := by
      refine enter_grows h henter (fun p hp => ?_) hfree.up fun p _ hp _ => hfree.below p hp
      by_cases heq : p = context.inside key
      · exact hfree.entry _ _ (heq ▸ hbelow.1)
      · exact (hfree.of_isPrefix hbelow.1).above p ⟨hp.trans (List.prefix_append _ _), Ne.symm heq⟩
    have hlist : Grows loose new d₁ (d₁.list (context.inside key)) := .of_eq h₁.sound rfl rfl
    have h₂ : Grows loose new d₁ d₂ := hlist.trans <|
      evaluate_grows (hfree.of_isPrefix hbelow.1) hlist.sound (.inr hloose) (.inl hnote) v
        (fun hp k hk => hnamed hp k (List.mem_cons_of_mem _ (List.mem_append_left _ hk))) hv
    have hplant {d : Document} (h : d.Sound)
        (hopen : ∀ p ∈ parents (context.inside key), (d.get? p).isSome) :
        Grows loose new d (plant (context.inside key) d v) :=
      (plant_grows h (List.concat_ne_nil _ _) hopen v).mono (fun p => hfree.up _ p hloose)
        fun p e hp => hfree.entry p e (hbelow.1.trans hp)
    have h₃ : Grows loose new d₂ d₃ := by
      have hname : Grows loose new d₂ (d₂.name (context.inside key)) := .of_eq h₂.sound rfl rfl
      obtain ⟨hopen, ⟨rfl, -⟩ | ⟨rfl, -⟩ | ⟨rfl, -⟩⟩ := define_ok hdefine
      · exact hplant h₂.sound hopen
      · exact hname.trans (hplant hname.sound hopen)
      · exact hname
    have htyped : Grows loose new d₃
        (d₃.typed (context ++ key.dropLast) (key.getLast?.getD []) v.isArray) :=
      .typed h₃.sound (.inl hnote)
    refine ((h₁.trans h₂).trans (h₃.trans htyped)).trans ?_
    exact assignAll_grows hfree htyped.sound rest
      (fun hp k hk => hnamed hp k (List.mem_cons_of_mem _ (List.mem_append_right _ hk))) hd
end

-- --------------------------------------------------------------------
-- Whole documents

theorem step_header {context : Key} {inArray : Bool} {x : Document × Key} :
    step (d, context) (if inArray then .tables k else .table k) = .ok x ↔
      ∃ d₁, d.openTable k inArray = .ok d₁ ∧ x = ((d₁.typed k [] false).list k, k) := by
  cases inArray <;>
    simp only [Bool.false_eq_true, if_true, if_false, step, bind_ok, pure, Except.pure,
      Except.ok.injEq, eq_comm (a := x)]

theorem step_assign {context key : Key} {x : Document × Key} :
    step (d, context) (.assign key v) = .ok x ↔
      ∃ d₁, assignAll context (.cons key v .nil) d = .ok d₁ ∧ x = (d₁, context) := by
  simp only [step, bind_ok, pure, Except.pure, Except.ok.injEq, eq_comm (a := x)]

theorem step_sound {x y : Document × Key} {s : Statement} (h : x.1.Sound) (hs : step x s = .ok y) :
    y.1.Sound := by
  obtain ⟨d, context⟩ := x
  have hheader (k : Key) (inArray : Bool)
      (hs : step (d, context) (if inArray then .tables k else .table k) = .ok y) : y.1.Sound := by
    obtain ⟨d₁, hopen, rfl⟩ := step_header.mp hs
    have hgrows : Grows (fun _ => True) (fun _ _ => True) d d₁ :=
      (openTable_grows h (fun _ _ => trivial) hopen (fun _ _ => trivial) trivial (by simp)).1
    exact ⟨hgrows.sound.distinct, hgrows.sound.closed⟩
  cases s with
  | table k => exact hheader k false hs
  | tables k => exact hheader k true hs
  | assign key v =>
    obtain ⟨d₁, hassign, rfl⟩ := step_assign.mp hs
    have hfree : Free (fun _ => True) (fun _ _ => True) context :=
      ⟨fun _ _ _ _ => trivial, fun _ _ => trivial, fun _ _ _ => trivial, fun _ _ => trivial⟩
    exact (assignAll_grows hfree h _ (fun ⟨_, hp⟩ => absurd trivial hp) hassign).sound

theorem foldlM_step_sound {ss : List Statement} {x y : Document × Key} (h : x.1.Sound)
    (hss : ss.foldlM step x = .ok y) : y.1.Sound := by
  induction ss generalizing x with
  | nil =>
    cases hss
    exact h
  | cons s ss ih =>
    rw [List.foldlM_cons, bind_ok] at hss
    obtain ⟨z, hs, hss⟩ := hss
    exact ih (step_sound h hs) hss

theorem ofStatements_ok {ss : List Statement} :
    ofStatements ss = .ok d ↔ ∃ context, ss.foldlM step (empty, []) = .ok (d, context) := by
  simp only [ofStatements, bind_ok]
  constructor
  · rintro ⟨⟨d', context⟩, hss, h⟩
    cases h
    exact ⟨context, hss⟩
  · rintro ⟨context, hss⟩
    exact ⟨_, hss, rfl⟩

theorem read_ok {c : Bytes} :
    read c = .ok d ↔ ∃ ss, statements? c = some ss ∧ ofStatements ss = .ok d := by
  unfold read
  cases statements? c <;> simp

theorem sound_of_ofStatements {ss : List Statement} (h : ofStatements ss = .ok d) : d.Sound := by
  obtain ⟨context, hfold⟩ := ofStatements_ok.mp h
  exact foldlM_step_sound sound_empty hfold

theorem sound_of_read {c : Bytes} (h : read c = .ok d) : d.Sound := by
  obtain ⟨ss, -, hss⟩ := read_ok.mp h
  exact sound_of_ofStatements hss

end Document

end Toml

end Restyler
