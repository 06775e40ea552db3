import Mathlib.Data.List.Infix
import Restyler.Proofs.Search

/-!
# Keyword spacing, parenthesis by parenthesis

No keyword holds a parenthesis, so what happens before one depends on the bytes since the one before
it only: a space is put there if they end in a keyword. A search from left to right does exactly
that, whether it looks for all keywords at once or for a single one. A space ends no keyword, so
what one replacement has inserted is out of reach for the others, and they can be made in any order.
-/

namespace Restyler

-- --------------------------------------------------------------------
-- Replacing a pattern

/-- Replaces a pattern from left to right, leaving out the bytes of an occurrence that is being
replaced; the first number says how many of these are still to come. -/
def substituteFrom (old new : Bytes) : Nat → Bytes → Bytes
  | _, [] => []
  | n + 1, _ :: s => substituteFrom old new n s
  | 0, b :: s =>
    if old.isPrefixOf (b :: s) then new ++ substituteFrom old new (old.length - 1) s
    else b :: substituteFrom old new 0 s

/-- Replaces every occurrence of a pattern that is not empty. Those that overlap an earlier one do
not count. -/
def substitute (old new s : Bytes) : Bytes := substituteFrom old new 0 s

theorem substituteFrom_drop (old new u s : Bytes) :
    substituteFrom old new u.length (u ++ s) = substituteFrom old new 0 s := by
  induction u with
  | nil => rfl
  | cons b u ih => exact ih

theorem substitute_append {old : Bytes} (h : old ≠ []) (new s : Bytes) :
    substitute old new (old ++ s) = new ++ substitute old new s := by
  obtain ⟨b, u, rfl⟩ := List.exists_cons_of_ne_nil h
  have hprefix : (b :: u).isPrefixOf (b :: (u ++ s)) = true := by simp
  rw [substitute, List.cons_append, substituteFrom, if_pos hprefix]
  exact congrArg (new ++ ·) (substituteFrom_drop _ _ u s)

theorem substitute_cons {old s : Bytes} {b : UInt8} (h : ¬ old <+: b :: s) (new : Bytes) :
    substitute old new (b :: s) = b :: substitute old new s := by
  have hprefix : ¬ old.isPrefixOf (b :: s) = true := by simpa using h
  rw [substitute, substituteFrom, if_neg hprefix, substitute]

namespace Rule

-- --------------------------------------------------------------------
-- Up to a parenthesis

/-- What stands before a parenthesis, with a space behind it if it ends in a keyword. -/
def spaceAfter (keywords : List Bytes) (u : Bytes) : Bytes :=
  if ∃ k ∈ keywords, k <:+ u then u ++ [Byte.space] else u

/-- A function that puts a space before each parenthesis directly behind a keyword and does nothing
else. -/
structure Spaces (keywords : List Bytes) (f : Bytes → Bytes) : Prop where
  last : ∀ u, 0x28 ∉ u → f u = u
  call : ∀ u v, 0x28 ∉ u → f (u ++ 0x28 :: v) = spaceAfter keywords u ++ 0x28 :: f v

/-- Keywords that hold neither a parenthesis nor a space. -/
def Plain (keywords : List Bytes) : Prop :=
  ∀ k ∈ keywords, k ≠ [] ∧ 0x28 ∉ k ∧ Byte.space ∉ k

section
variable {ks ks' : List Bytes} {f g : Bytes → Bytes}

theorem spaceAfter_congr (h : ∀ k, k ∈ ks ↔ k ∈ ks') (u : Bytes) :
    spaceAfter ks u = spaceAfter ks' u := by
  simp only [spaceAfter, h]

theorem spaceAfter_notMem {u : Bytes} (hu : 0x28 ∉ u) : 0x28 ∉ spaceAfter ks u := by
  unfold spaceAfter
  split
  · rw [List.mem_append, not_or]
    exact ⟨hu, by decide⟩
  · exact hu

/-- A space behind a keyword hides it, so there is one at most. -/
theorem spaceAfter_spaceAfter (hks' : Plain ks') (u : Bytes) :
    spaceAfter ks' (spaceAfter ks u) = spaceAfter (ks ++ ks') u := by
  have hhidden : ¬ ∃ k ∈ ks', k <:+ u ++ [Byte.space] := by
    rintro ⟨k, hk, hsuffix⟩
    obtain ⟨hne, -, hspace⟩ := hks' k hk
    rcases List.suffix_concat_iff.mp hsuffix with rfl | ⟨t, rfl, -⟩
    · exact hne rfl
    · exact hspace (by simp)
  by_cases h : ∃ k ∈ ks, k <:+ u
  · have hany : ∃ k ∈ ks ++ ks', k <:+ u :=
      h.imp fun k hk => hk.imp_left (List.mem_append_left ks')
    have hspaced : spaceAfter ks u = u ++ [Byte.space] := if_pos h
    rw [hspaced, spaceAfter, if_neg hhidden, spaceAfter, if_pos hany]
  · have hiff : (∃ k ∈ ks ++ ks', k <:+ u) ↔ ∃ k ∈ ks', k <:+ u := by
      constructor
      · rintro ⟨k, hk, hsuffix⟩
        refine ⟨k, (List.mem_append.mp hk).resolve_left fun hk => h ⟨k, hk, hsuffix⟩, hsuffix⟩
      · exact fun h => h.imp fun k hk => hk.imp_left (List.mem_append_right ks)
    simp only [spaceAfter, if_neg h, hiff]

namespace Spaces

/-- A text is made of stretches that end at a parenthesis, and a last one. -/
theorem ext (hf : Spaces ks f) (hg : Spaces ks g) (s : Bytes) : f s = g s := by
  by_cases h : 0x28 ∈ s
  · obtain ⟨u, v, hs, hu⟩ := List.eq_append_cons_of_mem h
    have hlt : v.length < s.length := by
      rw [hs, List.length_append, List.length_cons]
      omega
    rw [hs, hf.call u v hu, hg.call u v hu, hf.ext hg v]
  · rw [hf.last s h, hg.last s h]
termination_by s.length

theorem congr (hf : Spaces ks f) (h : ∀ k, k ∈ ks ↔ k ∈ ks') : Spaces ks' f :=
  ⟨hf.last, fun u v hu => by rw [hf.call u v hu, spaceAfter_congr h]⟩

theorem nil : Spaces [] id := ⟨fun _ _ => rfl, fun _ _ _ => by simp [spaceAfter]⟩

theorem comp (hf : Spaces ks f) (hg : Spaces ks' g) (hks' : Plain ks') :
    Spaces (ks ++ ks') fun s => g (f s) where
  last u hu := by rw [hf.last u hu, hg.last u hu]
  call u v hu := by
    rw [hf.call u v hu, hg.call _ _ (spaceAfter_notMem hu), spaceAfter_spaceAfter hks']

/-- Several functions, one after the other, with a list of keywords each. -/
theorem foldl {α : Type} {step : Bytes → α → Bytes} (keywords : α → List Bytes) {xs : List α}
    (h : ∀ x ∈ xs, Spaces (keywords x) (step · x) ∧ Plain (keywords x)) :
    Spaces (xs.flatMap keywords) fun s => xs.foldl step s := by
  induction xs using List.reverseRecOn with
  | nil => exact .nil
  | append_singleton xs x ih =>
    obtain ⟨hx, hplain⟩ := h x (by simp)
    have hxs := ih fun y hy => h y (by simp [hy])
    simpa using hxs.comp hx hplain

end Spaces

end

-- --------------------------------------------------------------------
-- Place by place

/-- The text with one space before each parenthesis that stands directly behind a keyword. -/
def spacedAt (keywords : List Bytes) (s : Bytes) : Bytes :=
  s.zipIdx.flatMap fun (b, i) =>
    if b = 0x28 ∧ ∃ k ∈ keywords, k <:+ s.take i then [Byte.space, b] else [b]

/-- The same of a text that something stands in front of. -/
def spacedBehind (keywords : List Bytes) : Bytes → Bytes → Bytes
  | _, [] => []
  | before, b :: s =>
    (if b = 0x28 ∧ ∃ k ∈ keywords, k <:+ before then [Byte.space, b] else [b]) ++
      spacedBehind keywords (before ++ [b]) s

theorem suffix_append_sep {sep : UInt8} {k u v : Bytes} (hk : sep ∉ k) :
    k <:+ u ++ sep :: v ↔ k <:+ v := by
  refine ⟨fun h => ?_, fun h => h.trans ⟨u ++ [sep], by simp⟩⟩
  rcases List.suffix_or_suffix_of_suffix h (⟨u, rfl⟩ : sep :: v <:+ u ++ sep :: v) with h | h
  · rcases List.suffix_cons_iff.mp h with rfl | h
    · exact absurd List.mem_cons_self hk
    · exact h
  · exact absurd (h.subset List.mem_cons_self) hk

section
variable {ks : List Bytes}

theorem spacedAt_eq (s : Bytes) : spacedAt ks s = spacedBehind ks [] s := by
  have hfrom (before s : Bytes) :
      (s.zipIdx before.length).flatMap (fun (b, i) =>
        if b = 0x28 ∧ ∃ k ∈ ks, k <:+ (before ++ s).take i then [Byte.space, b] else [b]) =
        spacedBehind ks before s := by
    induction s generalizing before with
    | nil => rfl
    | cons b s ih =>
      have hrest := ih (before ++ [b])
      rw [List.length_append, List.append_assoc] at hrest
      have htake : (before ++ b :: s).take before.length = before := List.take_left
      rw [List.zipIdx_cons, List.flatMap_cons, spacedBehind, ← hrest]
      simp only [htake]
      rfl
  exact hfrom [] s

theorem spacedBehind_append (before : Bytes) {u : Bytes} (hu : 0x28 ∉ u) (s : Bytes) :
    spacedBehind ks before (u ++ s) = u ++ spacedBehind ks (before ++ u) s := by
  induction u generalizing before with
  | nil => simp
  | cons b u ih =>
    rw [List.mem_cons, not_or] at hu
    rw [List.cons_append, spacedBehind, if_neg fun h => hu.1 h.1.symm, ih _ hu.2,
      List.append_assoc]
    rfl

/-- A keyword does not reach over a parenthesis. -/
theorem spacedBehind_paren (hks : Plain ks) (u v s : Bytes) :
    spacedBehind ks (u ++ 0x28 :: v) s = spacedBehind ks v s := by
  induction s generalizing v with
  | nil => rfl
  | cons b s ih =>
    have hiff : (∃ k ∈ ks, k <:+ u ++ 0x28 :: v) ↔ ∃ k ∈ ks, k <:+ v :=
      exists_congr fun k => and_congr_right fun hk => suffix_append_sep (hks k hk).2.1
    simp only [spacedBehind, hiff, List.append_assoc, List.cons_append, ih]

theorem spacedAt_spaces (hks : Plain ks) : Spaces ks (spacedAt ks) where
  last u hu := by
    have hcopy : spacedBehind ks [] (u ++ []) = u ++ spacedBehind ks ([] ++ u) [] :=
      spacedBehind_append [] hu []
    rw [List.append_nil] at hcopy
    rw [spacedAt_eq, hcopy, spacedBehind, List.append_nil]
  call u v hu := by
    rw [spacedAt_eq, spacedAt_eq, spacedBehind_append [] hu, List.nil_append, spacedBehind,
      spacedBehind_paren hks, spaceAfter]
    by_cases h : ∃ k ∈ ks, k <:+ u
    · rw [if_pos ⟨rfl, h⟩, if_pos h, List.append_assoc]
      rfl
    · rw [if_neg fun hb => h hb.2, if_neg h]
      rfl

end

-- --------------------------------------------------------------------
-- Searches

/-- A keyword found with its parenthesis ends at the first parenthesis that there is. -/
theorem eq_of_prefix_paren {k u v : Bytes} (hk : 0x28 ∉ k) (hu : 0x28 ∉ u)
    (h : k ++ bytes "(" <+: u ++ 0x28 :: v) : k = u := by
  obtain ⟨w, rfl⟩ := prefix_of_prefix_append_sep hk ((List.prefix_append k _).trans h)
  rw [List.append_assoc, List.prefix_append_right_inj] at h
  cases w with
  | nil => rw [List.append_nil]
  | cons c w =>
    obtain ⟨rfl, -⟩ := List.cons_prefix_cons.mp h
    exact absurd (List.mem_append_right k List.mem_cons_self) hu

theorem append_paren (u v : Bytes) : u ++ 0x28 :: v = u ++ bytes "(" ++ v := by
  rw [List.append_assoc]
  rfl

theorem spaceAfter_nil {ks : List Bytes} (hks : Plain ks) : spaceAfter ks [] = [] := by
  refine if_neg ?_
  rintro ⟨k, hk, h⟩
  exact (hks k hk).1 (List.suffix_nil.mp h)

theorem spaceAfter_cons {ks : List Bytes} {b : UInt8} {u : Bytes} (h : b :: u ∉ ks) :
    spaceAfter ks (b :: u) = b :: spaceAfter ks u := by
  have hiff : (∃ k ∈ ks, k <:+ b :: u) ↔ ∃ k ∈ ks, k <:+ u := by
    refine exists_congr fun k => and_congr_right fun hk => ?_
    rw [List.suffix_cons_iff, or_iff_right]
    rintro rfl
    exact h hk
  simp only [spaceAfter, hiff]
  split <;> rfl

theorem spaceAfter_self {ks : List Bytes} {k : Bytes} (h : k ∈ ks) :
    spaceAfter ks k = k ++ [Byte.space] :=
  if_pos ⟨k, h, List.suffix_rfl⟩

/-- A search that copies a text from left to right, and puts a space behind each keyword that it
finds with a parenthesis. -/
structure Scans (keywords : List Bytes) (f : Bytes → Bytes) : Prop where
  nil : f [] = []
  other : ∀ b s, (∀ k ∈ keywords, ¬ k ++ bytes "(" <+: b :: s) → f (b :: s) = b :: f s
  found : ∀ k ∈ keywords, ∀ s, f (k ++ bytes "(" ++ s) = k ++ bytes " (" ++ f s

/-- Such a search finds a keyword wherever one ends at a parenthesis, as it cannot find anything
before that. -/
theorem Scans.spaces {ks : List Bytes} (hks : Plain ks) {f : Bytes → Bytes} (hf : Scans ks f) :
    Spaces ks f where
  last u hu := by
    induction u with
    | nil => exact hf.nil
    | cons b u ih =>
      have hfree : ∀ k ∈ ks, ¬ k ++ bytes "(" <+: b :: u := fun k _ h =>
        hu (h.subset (List.mem_append_right k (by decide)))
      rw [List.mem_cons, not_or] at hu
      rw [hf.other b u hfree, ih hu.2]
  call u v hu := by
    have hat {k : Bytes} (hk : k ∈ ks) {w : Bytes} (hw : 0x28 ∉ w)
        (h : k ++ bytes "(" <+: w ++ 0x28 :: v) : w ∈ ks :=
      eq_of_prefix_paren (hks k hk).2.1 hw h ▸ hk
    induction u with
    | nil =>
      have hfree : ∀ k ∈ ks, ¬ k ++ bytes "(" <+: 0x28 :: v := fun k hk h =>
        (hks [] (hat hk hu h)).1 rfl
      rw [List.nil_append, hf.other _ v hfree, spaceAfter_nil hks]
      rfl
    | cons b u ih =>
      by_cases hmem : b :: u ∈ ks
      · rw [append_paren, hf.found _ hmem, spaceAfter_self hmem, List.append_assoc,
          List.append_assoc]
        rfl
      · have hfree : ∀ k ∈ ks, ¬ k ++ bytes "(" <+: b :: (u ++ 0x28 :: v) := fun k hk h =>
          hmem (hat hk hu h)
        rw [List.mem_cons, not_or] at hu
        rw [List.cons_append, hf.other _ _ hfree, ih hu.2, spaceAfter_cons hmem, List.cons_append]

theorem plain_spacedKeywords : Plain spacedKeywords := by
  unfold Plain
  decide

theorem keywordAt?_self {k : Bytes} (hk : k ∈ spacedKeywords) (s : Bytes) :
    keywordAt? (k ++ bytes "(" ++ s) = some k := by
  cases h : keywordAt? (k ++ bytes "(" ++ s) with
  | none => exact absurd (List.prefix_append _ s) (keywordAt?_eq_none.mp h k hk)
  | some k' =>
    obtain ⟨hk', hprefix⟩ := keywordAt?_eq_some h
    rw [← append_paren] at hprefix
    have hparen := (plain_spacedKeywords k hk).2.1
    rw [eq_of_prefix_paren (plain_spacedKeywords k' hk').2.1 hparen hprefix]

theorem scans_spaceFrom : Scans spacedKeywords (spaceFrom 0) where
  nil := rfl
  other _ _ h := spaceFrom_zero_of_none (keywordAt?_eq_none.mpr h)
  found k hk s := by
    rw [spaceFrom_keyword (keywordAt?_self hk s), List.append_assoc]
    rfl

theorem scans_substitute (k : Bytes) :
    Scans [k] (substitute (k ++ bytes "(") (k ++ bytes " (")) where
  nil := rfl
  other _ _ h := substitute_cons (h k List.mem_cons_self) _
  found k' hk' s := by
    obtain rfl := List.mem_singleton.mp hk'
    exact substitute_append (List.append_ne_nil_of_right_ne_nil k' (by decide)) _ s

-- --------------------------------------------------------------------
-- All of them together

/-- Keyword spacing puts one space before each parenthesis directly behind a keyword and does
nothing else. It is the same as replacing one keyword after the other, in any order. -/
theorem spaceKeywords_exact (s : Bytes) :
    spaceKeywords s = spacedAt spacedKeywords s ∧
      ∀ order : List Bytes, order.Perm spacedKeywords →
        order.foldl (fun s k => substitute (k ++ bytes "(") (k ++ bytes " (") s) s =
          spaceKeywords s := by
  have hscan : Spaces spacedKeywords (spaceFrom 0) := scans_spaceFrom.spaces plain_spacedKeywords
  rw [spaceKeywords_eq_spaceFrom]
  refine ⟨hscan.ext (spacedAt_spaces plain_spacedKeywords) s, fun order horder => ?_⟩
  have heach : ∀ k ∈ order, Plain [k] := by
    intro k hk k' hk'
    obtain rfl := List.mem_singleton.mp hk'
    exact plain_spacedKeywords k' (horder.mem_iff.mp hk)
  have hall := Spaces.foldl ([·]) fun k hk =>
    ⟨(scans_substitute k).spaces (heach k hk), heach k hk⟩
  refine (hall.congr fun k => ?_).ext hscan s
  simpa using horder.mem_iff

/-- Keywords in each other's way: as the end of a longer word, behind another parenthesis, cut
short, and with a space already. -/
theorem spaceKeywords_exact_dense :
    let s := bytes "xcatch(typeof(function(functioncatch( typeof ((catc("
    let order := [bytes "typeof", bytes "catch", bytes "function"]
    order.Perm spacedKeywords ∧
      order.foldl (fun s k => substitute (k ++ bytes "(") (k ++ bytes " (") s) s =
        bytes "xcatch (typeof (function (functioncatch ( typeof ((catc(" := by
  intro s order
  have horder : order.Perm spacedKeywords := by decide
  refine ⟨horder, ((spaceKeywords_exact s).2 order horder).trans (by decide)⟩

end Rule

end Restyler
