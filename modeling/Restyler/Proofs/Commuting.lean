import Restyler.Proofs.Search

/-!
# Keyword spacing commutes with the other rules

Spacing acts at the parentheses behind keywords, and the other rules do not: respelling acts at
quote characters and splitting at the space before a statement, which are in no keyword. So a text
can be cut at such a byte before it is spaced or after. Spacing does not make or break a line that
is split either: the space that it inserts is followed by an opening parenthesis, and stands behind
none of the letters of `if`.
-/

namespace Restyler

namespace Rule

-- --------------------------------------------------------------------
-- Quotes

theorem Mark.apart_byte (q : Mark) : Apart q.byte := by
  cases q <;> decide

/-- The gap with its keywords spaced. -/
def Gap.spaced (g : Gap) : Gap where
  text := spaceFrom 0 g.text
  bare := List.filterMap_eq_nil_iff.mp ((marks_spaceFrom 0 g.text).trans g.marks_text)

theorem Gap.spaced_escape (g : Gap) : g.escape.spaced = g.spaced.escape := by
  have htext : spaceFrom 0 (g.text ++ [Byte.backslash]) =
      spaceFrom 0 g.text ++ [Byte.backslash] :=
    spaceFrom_append_apart (by decide) (Nat.zero_le _) []
  simpa [spaced, escape] using htext

/-- Spacing carries the marks along and acts inside the gaps. -/
theorem spaceFrom_spell (g : Gap) (m : List (Mark × Gap)) :
    spaceFrom 0 (g.text ++ spell m) = g.spaced.text ++ spell (m.map (Prod.map id Gap.spaced)) := by
  induction m generalizing g with
  | nil => simp [spell, Gap.spaced]
  | cons p m ih =>
    obtain ⟨q, a⟩ := p
    rw [spell_cons, spaceFrom_append_apart q.apart_byte (Nat.zero_le _), ih, List.map_cons,
      Prod.map_apply, spell_cons]
    rfl

theorem closePair?_map (f : Gap → Gap) (m : List (Mark × Gap)) :
    closePair? (m.map (Prod.map id f)) = (closePair? m).map (List.map (Prod.map id f)) := by
  induction m with
  | nil => rfl
  | cons p m ih =>
    match p, m with
    | (.double, a), m => simp [closePair?, ih, Function.comp_def]
    | (.single, a), [] | (.single, a), (.single, b) :: m | (.single, a), (.double, b) :: m => rfl

/-- The rule on marks does not look into the gaps. -/
theorem settle_map {f : Gap → Gap} (hf : ∀ g, f g.escape = (f g).escape) (m : List (Mark × Gap)) :
    settle (m.map (Prod.map id f)) = (settle m).map (Prod.map id f) := by
  match m with
  | [] | (.single, _) :: _ | [(.double, _)] | (.double, _) :: [(.single, _)]
  | (.double, _) :: (.single, _) :: [(.single, _)]
  | (.double, _) :: (.double, _) :: (.double, _) :: (.double, _) :: _
  | (.double, _) :: (.double, _) :: [] | (.double, _) :: (.double, _) :: (.single, _) :: _
  | (.double, _) :: (.double, _) :: [(.double, _)]
  | (.double, _) :: (.double, _) :: (.double, _) :: (.single, _) :: _
  | (.double, _) :: (.single, _) :: (.single, _) :: (.double, _) :: _ => rfl
  | (.double, a) :: (.single, b) :: (.double, c) :: m => simp [settle, hf]
  | (.double, a) :: (.single, b) :: (.single, c) :: (.single, d) :: m =>
    simp only [List.map_cons, Prod.map_apply, id_eq, settle, closePair?_map]
    cases closePair? m <;> rfl

theorem spaceFrom_normalizeLine (l : Bytes) :
    spaceFrom 0 (normalizeLine l) = normalizeLine (spaceFrom 0 l) := by
  obtain ⟨g, m, rfl⟩ := exists_spell l
  rw [normalizeLine_spell, spaceFrom_spell, spaceFrom_spell, normalizeLine_spell,
    settle_map Gap.spaced_escape]

theorem spaceKeywords_normalizeQuotes (s : Bytes) :
    spaceKeywords (normalizeQuotes s) = normalizeQuotes (spaceKeywords s) := by
  rw [spaceKeywords, spaceKeywords, normalizeQuotes_eq, normalizeQuotes_eq, onLines_onLines,
    onLines_onLines]
  refine onLines_congr fun l hl => ?_
  have hline := isLine_of_mem_lines hl
  rw [onLines_of_isLine _ (isLine_normalizeLine hline),
    onLines_of_isLine _ (isLine_spaceFrom 0 hline), spaceFrom_normalizeLine]

-- --------------------------------------------------------------------
-- Bytes that start no keyword

/-- A byte that no keyword starts with. -/
def StartsNone (b : UInt8) : Prop := ∀ k ∈ spacedKeywords, k.head? ≠ some b

instance : DecidablePred StartsNone := fun b =>
  inferInstanceAs (Decidable (∀ k ∈ spacedKeywords, k.head? ≠ some b))

theorem spaceFrom_cons {b : UInt8} (hb : StartsNone b) (s : Bytes) :
    spaceFrom 0 (b :: s) = b :: spaceFrom 0 s := by
  refine spaceFrom_zero_of_none (keywordAt?_eq_none.mpr fun k hk hp => hb k hk ?_)
  cases k with
  | nil => exact absurd hk (by decide)
  | cons c k =>
    obtain ⟨rfl, -⟩ := List.cons_prefix_cons.mp hp
    rfl

theorem head?_spaceFrom (s : Bytes) : (spaceFrom 0 s).head? = s.head? := by
  cases s with
  | nil => rfl
  | cons b s =>
    rw [spaceFrom]
    split <;> rfl

theorem exists_of_spaceFrom_eq_cons {b : UInt8} (hb : StartsNone b) {s t : Bytes}
    (h : spaceFrom 0 s = b :: t) : ∃ s', s = b :: s' ∧ spaceFrom 0 s' = t := by
  have hhead := head?_spaceFrom s
  rw [h] at hhead
  obtain ⟨s', rfl⟩ := List.head?_eq_some_iff.mp hhead.symm
  rw [spaceFrom_cons hb] at h
  exact ⟨s', rfl, (List.cons.inj h).2⟩

theorem StartsNone.of_isIndent {b : UInt8} (hb : isIndent b = true) : StartsNone b := by
  rw [isIndent, Bool.or_eq_true, beq_iff_eq, beq_iff_eq] at hb
  rcases hb with rfl | rfl <;> decide

theorem spaceFrom_indentation {w : Bytes} (hw : IsIndentation w) (s : Bytes) :
    spaceFrom 0 (w ++ s) = w ++ spaceFrom 0 s := by
  induction w with
  | nil => rfl
  | cons b w ih =>
    obtain ⟨hb, hw⟩ := List.forall_mem_cons.mp hw
    rw [List.cons_append, spaceFrom_cons (.of_isIndent hb), ih hw, List.cons_append]

theorem indent_spaceFrom (l : Bytes) :
    (spaceFrom 0 l).takeWhile isIndent = l.takeWhile isIndent ∧
      (spaceFrom 0 l).dropWhile isIndent = spaceFrom 0 (l.dropWhile isIndent) := by
  induction l with
  | nil => exact ⟨rfl, rfl⟩
  | cons b l ih =>
    cases hb : isIndent b with
    | true => simpa [spaceFrom_cons (.of_isIndent hb), hb] using ih
    | false =>
      obtain ⟨t, ht⟩ := List.head?_eq_some_iff.mp (head?_spaceFrom (b :: l))
      simp [ht, hb]

-- --------------------------------------------------------------------
-- The shape that is split

/-- A pattern without parentheses is copied as it is. -/
theorem prefix_spaceFrom {x s : Bytes} (hx : 0x28 ∉ x) (h : x <+: s) : x <+: spaceFrom 0 s := by
  induction s using keyword_induction generalizing x with
  | nil => exact h
  | byte b s hat ih =>
    rw [spaceFrom_zero_of_none hat]
    rcases List.prefix_cons_iff.mp h with rfl | ⟨y, rfl, hy⟩
    · exact List.nil_prefix
    · exact List.cons_prefix_cons.mpr ⟨rfl, ih (List.not_mem_of_not_mem_cons hx) hy⟩
  | keyword k s hat ih =>
    rw [spaceFrom_keyword hat]
    rw [List.append_assoc] at h
    exact (prefix_of_prefix_append_sep hx h).trans (List.prefix_append _ _)

theorem spaceFrom_if (body : Bytes) :
    spaceFrom 0 (bytes "if (" ++ body) = bytes "if (" ++ spaceFrom 0 body := by
  have hspace : spaceFrom 0 (bytes "if" ++ Byte.space :: 0x28 :: body) =
      spaceFrom 0 (bytes "if") ++ Byte.space :: spaceFrom 0 (0x28 :: body) :=
    spaceFrom_append_apart (by decide) (Nat.zero_le _) _
  rw [spaceFrom_cons (by decide)] at hspace
  exact hspace

/-- No keyword is a single letter, so a space behind the first letter was there before. -/
theorem keywordAt?_of_spaceFrom {b : UInt8} {s t : Bytes}
    (h : spaceFrom 0 s = b :: Byte.space :: t) : keywordAt? s = none := by
  cases hat : keywordAt? s with
  | none => rfl
  | some k =>
    obtain ⟨hk, r, hr⟩ := keywordAt?_eq_some hat
    have hlong : ∀ k ∈ spacedKeywords, 1 < k.length ∧ Byte.space ∉ k := by decide
    obtain ⟨hlength, hspace⟩ := hlong k hk
    rw [← hr] at hat h
    rw [spaceFrom_keyword hat] at h
    have hsecond : (k ++ Byte.space :: 0x28 :: spaceFrom 0 r)[1]? = some Byte.space := by
      rw [h]
      rfl
    rw [List.getElem?_append_left hlength] at hsecond
    exact absurd (List.mem_of_getElem? hsecond) hspace

theorem exists_of_spaceFrom_if {s body : Bytes} (h : spaceFrom 0 s = bytes "if (" ++ body) :
    ∃ body', s = bytes "if (" ++ body' ∧ spaceFrom 0 body' = body := by
  have hletters : spaceFrom 0 s = 0x69 :: 0x66 :: Byte.space :: 0x28 :: body := h
  obtain ⟨s, rfl, hi⟩ := exists_of_spaceFrom_eq_cons (by decide) hletters
  -- `function` starts with the letter that follows.
  have hat : keywordAt? s = none := keywordAt?_of_spaceFrom hi
  have hhead := head?_spaceFrom s
  rw [hi] at hhead
  obtain ⟨s, rfl⟩ := List.head?_eq_some_iff.mp hhead.symm
  rw [spaceFrom_zero_of_none hat] at hi
  obtain ⟨s, rfl, hspace⟩ := exists_of_spaceFrom_eq_cons (by decide) (List.cons.inj hi).2
  obtain ⟨body', rfl, hbody⟩ := exists_of_spaceFrom_eq_cons (by decide) hspace
  exact ⟨body', rfl, hbody⟩

/-- The keywords of statements hold no space and no parenthesis. -/
theorem statementKeywords_bytes :
    ∀ k ∈ [bytes "return", bytes "throw"], k ≠ [] ∧ Byte.space ∉ k ∧ 0x28 ∉ k := by
  decide

section
variable {keyword : Bytes} (hk : keyword ∈ [bytes "return", bytes "throw"])
include hk

theorem pattern_infix_spaceFrom {s : Bytes} :
    bytes ") " ++ keyword <:+: spaceFrom 0 s ↔ bytes ") " ++ keyword <:+: s := by
  obtain ⟨-, hspace, hparen⟩ := statementKeywords_bytes keyword hk
  constructor
  · intro h
    induction s using keyword_induction with
    | nil => exact h
    | byte b s hat ih =>
      rcases List.infix_cons_iff.mp (spaceFrom_zero_of_none hat ▸ h) with hp | hi
      · rw [← spaceFrom_zero_of_none hat] at hp
        obtain ⟨rest, hrest⟩ := hp
        obtain ⟨t, ht, hclose⟩ := exists_of_spaceFrom_eq_cons (b := 0x29) (by decide) hrest.symm
        obtain ⟨t, rfl, hkeyword⟩ := exists_of_spaceFrom_eq_cons (by decide) hclose
        have hp : keyword <+: t := prefix_of_prefix_spaceFrom hspace ⟨rest, hkeyword.symm⟩
        rw [ht]
        exact ((List.prefix_append_right_inj (bytes ") ")).mpr hp).isInfix
      · exact List.infix_cons (ih hi)
    | keyword k s hat ih =>
      -- A closing parenthesis is in no keyword and not inserted behind one.
      have hapart : ∀ k ∈ spacedKeywords, 0x29 ∉ k ++ [Byte.space, 0x28] := by decide
      rw [spaceFrom_keyword hat, List.append_cons, List.append_cons, List.append_assoc k] at h
      have hrest := infix_of_infix_append (hapart k (keywordAt?_eq_some hat).1) h
      exact (ih hrest).trans (List.suffix_append _ _).isInfix
  · rintro ⟨test, rest, rfl⟩
    have hcut : spaceFrom 0 (test ++ 0x29 :: Byte.space :: (keyword ++ rest)) =
        spaceFrom 0 test ++ 0x29 :: spaceFrom 0 (Byte.space :: (keyword ++ rest)) :=
      spaceFrom_append_apart (by decide) (Nat.zero_le _) _
    obtain ⟨rest', hrest'⟩ := prefix_spaceFrom hparen (List.prefix_append keyword rest)
    rw [spaceFrom_cons (by decide), ← hrest'] at hcut
    have hassoc : test ++ (bytes ") " ++ keyword) ++ rest =
        test ++ 0x29 :: Byte.space :: (keyword ++ rest) := by
      simp only [List.append_assoc]
      rfl
    rw [hassoc, hcut]
    exact ⟨spaceFrom 0 test, rest', by simp only [List.append_assoc]; rfl⟩

theorem isOneLiner_spaceFrom {l : Bytes} :
    IsOneLiner keyword (spaceFrom 0 l) ↔ IsOneLiner keyword l := by
  rw [isOneLiner_iff, isOneLiner_iff, (indent_spaceFrom l).2]
  constructor
  · rintro ⟨_, hbody, hi⟩
    obtain ⟨body, hline, rfl⟩ := exists_of_spaceFrom_if hbody.symm
    exact ⟨body, hline.symm, (pattern_infix_spaceFrom hk).mp hi⟩
  · rintro ⟨body, hbody, hi⟩
    exact ⟨spaceFrom 0 body, by rw [← hbody, spaceFrom_if], (pattern_infix_spaceFrom hk).mpr hi⟩

end

-- --------------------------------------------------------------------
-- Where a line is split

section
variable {keyword line stem stem' statement statement' : Bytes}

/-- A line is split behind the shortest part that can be split. -/
theorem detach?_shortest (hne : keyword ≠ []) (h : detach? keyword line = some (stem, statement)) :
    IsOneLiner keyword (stem ++ Byte.space :: keyword) ∧
      ¬ IsOneLiner keyword (stem ++ Byte.space :: keyword.dropLast) := by
  unfold detach? at h
  split at h
  · exact absurd h nofun
  · next body hbody =>
    obtain ⟨⟨test, rest⟩, hcut, heq⟩ := Option.map_eq_some_iff.mp h
    obtain ⟨rfl, rfl⟩ := Prod.mk.inj heq
    have hw := isIndentation_takeWhile line
    have hassoc (t : Bytes) : line.takeWhile isIndent ++ bytes "if (" ++ test ++ bytes ")" ++
        Byte.space :: t = line.takeWhile isIndent ++ (bytes "if (" ++ (test ++ (bytes ") " ++ t))) := by
      simp only [List.append_assoc]
      rfl
    rw [hassoc, hassoc]
    refine ⟨⟨_, test, [], hw, by simp only [List.append_nil]⟩, ?_⟩
    rw [isOneLiner_iff]
    rintro ⟨body, hbody, hi⟩
    have hbare := (takeWhile_indentation (c := 0x69)
      (t := (bytes "if (").tail ++ (test ++ (bytes ") " ++ keyword.dropLast))) hw rfl).2
    rw [List.append_cancel_left (hbody.trans hbare)] at hi
    refine (cut_eq_some (by exact nofun) hcut).2 ?_
    rwa [List.dropLast_append_of_ne_nil hne]

theorem length_stem_le (hk : keyword <+: statement) (hk' : keyword <+: statement')
    (hline : stem ++ Byte.space :: statement = stem' ++ Byte.space :: statement')
    (h : IsOneLiner keyword (stem ++ Byte.space :: keyword))
    (h' : ¬ IsOneLiner keyword (stem' ++ Byte.space :: keyword.dropLast)) :
    stem'.length ≤ stem.length := by
  by_contra hlt
  have hpart : stem ++ Byte.space :: keyword <+: stem ++ Byte.space :: statement :=
    (List.prefix_append_right_inj stem).mpr (List.cons_prefix_cons.mpr ⟨rfl, hk⟩)
  have hpart' : stem' ++ Byte.space :: keyword.dropLast <+: stem ++ Byte.space :: statement := by
    rw [hline]
    exact (List.prefix_append_right_inj stem').mpr
      (List.cons_prefix_cons.mpr ⟨rfl, (List.dropLast_prefix keyword).trans hk'⟩)
  have hshort : stem ++ Byte.space :: keyword <+: stem' ++ Byte.space :: keyword.dropLast := by
    refine List.prefix_of_prefix_length_le hpart hpart' ?_
    simp only [List.length_append, List.length_cons, List.length_dropLast]
    omega
  exact h' (h.of_prefix hshort)

theorem detach?_of_shortest (hne : keyword ≠ []) (hk : keyword <+: statement)
    (h : IsOneLiner keyword (stem ++ Byte.space :: keyword))
    (h' : ¬ IsOneLiner keyword (stem ++ Byte.space :: keyword.dropLast)) :
    detach? keyword (stem ++ Byte.space :: statement) = some (stem, statement) := by
  have hwhole : IsOneLiner keyword (stem ++ Byte.space :: statement) :=
    h.of_prefix ((List.prefix_append_right_inj stem).mpr (List.cons_prefix_cons.mpr ⟨rfl, hk⟩))
  cases hd : detach? keyword (stem ++ Byte.space :: statement) with
  | none => exact absurd hwhole (detach?_eq_none.mp hd)
  | some p =>
    obtain ⟨stem', statement'⟩ := p
    obtain ⟨hline, hk', -⟩ := detach?_eq_some hd
    obtain ⟨hsplits, hfirst⟩ := detach?_shortest hne hd
    have hle := length_stem_le hk hk' hline h hfirst
    have hle' := length_stem_le hk' hk hline.symm hsplits h'
    obtain ⟨rfl, hrest⟩ := List.append_inj hline (Nat.le_antisymm hle' hle)
    rw [(List.cons.inj hrest).2]

end

section
variable {keyword : Bytes} (hk : keyword ∈ [bytes "return", bytes "throw"])
include hk

theorem detach?_spaceFrom (l : Bytes) :
    detach? keyword (spaceFrom 0 l) =
      (detach? keyword l).map (Prod.map (spaceFrom 0) (spaceFrom 0)) := by
  obtain ⟨hne, -, hparen⟩ := statementKeywords_bytes keyword hk
  cases hd : detach? keyword l with
  | none => exact detach?_eq_none.mpr fun h =>
      detach?_eq_none.mp hd ((isOneLiner_spaceFrom hk).mp h)
  | some p =>
    obtain ⟨stem, statement⟩ := p
    obtain ⟨rfl, hp, -⟩ := detach?_eq_some hd
    obtain ⟨hsplits, hfirst⟩ := detach?_shortest hne hd
    have hcut (t : Bytes) : spaceFrom 0 (stem ++ Byte.space :: t) =
        spaceFrom 0 stem ++ Byte.space :: spaceFrom 0 t :=
      spaceFrom_append_apart (by decide) (Nat.zero_le _) t
    have hcopy {t : Bytes} (ht : 0x28 ∉ t) : spaceFrom 0 t = t := by
      refine spaceFrom_of_spaced fun k _ hi => ht (hi.subset ?_)
      exact List.mem_append_right k (by decide)
    rw [hcut]
    refine detach?_of_shortest hne (prefix_spaceFrom hparen hp) ?_ ?_
    · rw [← hcopy hparen, ← hcut, hcopy hparen]
      exact (isOneLiner_spaceFrom hk).mpr hsplits
    · have hlast : 0x28 ∉ keyword.dropLast := fun h => hparen (List.dropLast_subset _ h)
      rw [← hcopy hlast, ← hcut]
      exact fun h => hfirst ((isOneLiner_spaceFrom hk).mp h)

theorem spaceFrom_splitLine {unit : Bytes} (hu : IsIndentation unit) (l : Bytes) :
    spaceFrom 0 (splitLine unit keyword l) = splitLine unit keyword (spaceFrom 0 l) := by
  rw [splitLine_eq, splitLine_eq, detach?_spaceFrom hk, (indent_spaceFrom l).1]
  cases detach? keyword l with
  | none => rfl
  | some p =>
    obtain ⟨stem, statement⟩ := p
    simp only [Option.map_some, Prod.map_apply]
    rw [spaceFrom_append_apart (by decide) (Nat.zero_le _),
      spaceFrom_indentation ((isIndentation_takeWhile l).append hu)]

theorem spaceKeywords_splitBefore {unit : Bytes} (hu : IsIndentation unit) (s : Bytes) :
    spaceKeywords (splitBefore unit keyword s) = splitBefore unit keyword (spaceKeywords s) := by
  rw [splitBefore, splitBefore, spaceKeywords, spaceKeywords, onLines_onLines, onLines_onLines]
  refine onLines_congr fun l hl => ?_
  have hspaced : onLines (spaceFrom 0) (splitLine unit keyword l) =
      spaceFrom 0 (splitLine unit keyword l) := spaceKeywords_eq_spaceFrom _
  rw [hspaced, onLines_of_isLine _ (isLine_spaceFrom 0 (isLine_of_mem_lines hl)),
    spaceFrom_splitLine hk hu]

end

theorem spaceKeywords_splitConditionals {unit : Bytes} (hu : IsIndentation unit) (s : Bytes) :
    spaceKeywords (splitConditionals unit s) = splitConditionals unit (spaceKeywords s) := by
  rw [splitConditionals, splitConditionals, spaceKeywords_splitBefore (by simp) hu,
    spaceKeywords_splitBefore (by simp) hu]

end Rule

-- --------------------------------------------------------------------
-- The pipeline

namespace Pipeline

open Rule

/-- Keyword spacing commutes with respelling and with splitting, so it can stand anywhere among the
steps of the pipeline. -/
theorem keywordParens_commutes :
    (∀ s, spaceKeywords (normalizeQuotes s) = normalizeQuotes (spaceKeywords s)) ∧
    (∀ unit, IsIndentation unit → ∀ s,
      spaceKeywords (splitConditionals unit s) = splitConditionals unit (spaceKeywords s)) ∧
    ∀ (width : Int) (before after : List Step),
      before ++ after = (ofWidth width).steps.filter (· ≠ .keywordParens) → ∀ s,
        (before ++ .keywordParens :: after).foldl
          (fun s step => step.apply (ofWidth width).unit s) s = (ofWidth width).apply s := by
  refine ⟨spaceKeywords_normalizeQuotes, fun _ => spaceKeywords_splitConditionals, ?_⟩
  intro width before after hsteps s
  have hothers : (ofWidth width).steps.filter (· ≠ .keywordParens) = [.quotes, .conditionals] := by
    simp [steps]
  rw [hothers] at hsteps
  rw [apply_eq]
  rcases List.append_eq_cons_iff.mp hsteps with ⟨rfl, rfl⟩ | ⟨before, rfl, hrest⟩
  · simp [Step.apply, spaceKeywords_normalizeQuotes]
  rcases List.append_eq_cons_iff.mp hrest.symm with ⟨rfl, rfl⟩ | ⟨before, rfl, hnil⟩
  · simp [Step.apply]
  · obtain ⟨rfl, rfl⟩ := List.append_eq_nil_iff.mp hnil.symm
    simp [Step.apply, spaceKeywords_splitConditionals (isIndentation_unit width)]

/-- A line that all steps change, with keyword spacing in the last place. -/
theorem keywordParens_commutes_last :
    let s := bytes "  if (typeof(x) == \"a\") return function() \x7b\x7d;"
    IsIndentation (bytes "  ") ∧
      [Step.quotes, .conditionals] ++ [] = (ofWidth 2).steps.filter (· ≠ .keywordParens) ∧
      spaceKeywords (splitConditionals (bytes "  ") s) =
        splitConditionals (bytes "  ") (spaceKeywords s) ∧
      [Step.quotes, .conditionals, .keywordParens].foldl
        (fun s step => step.apply (ofWidth 2).unit s) s = (ofWidth 2).apply s ∧
      (ofWidth 2).apply s =
        bytes "  if (typeof (x) == 'a')\n    return function () \x7b\x7d;" := by
  intro s
  have hunit : IsIndentation (bytes "  ") := by decide
  have hsteps : [Step.quotes, .conditionals] ++ [] =
      (ofWidth 2).steps.filter (· ≠ .keywordParens) := by decide
  obtain ⟨-, hsplit, hanywhere⟩ := keywordParens_commutes
  exact ⟨hunit, hsteps, hsplit _ hunit s, hanywhere 2 _ _ hsteps s, by decide⟩

end Pipeline

end Restyler
