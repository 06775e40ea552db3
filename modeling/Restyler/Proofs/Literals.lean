import Mathlib.Data.Bool.AllAny
import Mathlib.Data.List.Basic
import Restyler.Proofs.Respelled

/-!
# String literals under the quote passes

A line of double-quoted literals with gaps between them, where a literal may hold apostrophes. The
passes respell the first one or two literals and leave the others as they are, except that the last
pass takes the fourth apostrophe that it needs from a later literal if the first one has only three.
`merges` says when that happens; the two literals then become one.
-/

namespace Restyler.Rule

/-- A gap that lies on one line. -/
structure LineGap extends Gap where
  isLine : IsLine text

/-- A double-quoted literal, and the gap up to the next one. -/
structure Literal where
  body : Bytes
  closed : ∀ b ∈ body, b ≠ Byte.quote ∧ b ≠ Byte.newline
  gap : LineGap

namespace Literal

def apostrophes (l : Literal) : Nat := l.body.count Byte.apostrophe

/-- Literals as they stand on a line. -/
def source : List Literal → Bytes
  | [] => []
  | l :: ls => Byte.quote :: (l.body ++ Byte.quote :: (l.gap.text ++ source ls))

/-- Every apostrophe with a backslash before it. -/
def escapeAll (s : Bytes) : Bytes := s.flatMap fun b => if b = Byte.apostrophe then escaped else [b]

/-- Every apostrophe turned into a double quote. -/
def swapAll (s : Bytes) : Bytes := s.map fun b => if b = Byte.apostrophe then Byte.quote else b

/-- The ways to write a literal with the same content. -/
inductive Spelling (body : Bytes) : Bytes → Prop
  | kept : Spelling body (Byte.quote :: (body ++ [Byte.quote]))
  | escaped : Spelling body (Byte.apostrophe :: (escapeAll body ++ [Byte.apostrophe]))
  | swapped : Spelling body (Byte.apostrophe :: (swapAll body ++ [Byte.apostrophe]))

/-- A text in which each of the literals stands, in some spelling, with the gaps as they were. -/
inductive Survive : List Literal → Bytes → Prop
  | nil : Survive [] []
  | cons {l ls t out} :
      Spelling l.body t → Survive ls out → Survive (l :: ls) (t ++ (l.gap.text ++ out))

/-- Whether the first literal holds three apostrophes, and the next one with any holds one. -/
def merges : List Literal → Bool
  | [] => false
  | l :: ls =>
    l.apostrophes == 3 && (ls.find? fun m => 0 < m.apostrophes).any fun m => m.apostrophes == 1

theorem isLine_source (ls : List Literal) : IsLine (source ls) := by
  induction ls with
  | nil => exact nofun
  | cons l ls ih =>
    have hq : Byte.newline ≠ Byte.quote := by decide
    simp only [IsLine, source, List.mem_cons, List.mem_append, not_or]
    exact ⟨hq, fun h => (l.closed _ h).2 rfl, hq, l.gap.isLine, ih⟩

theorem survive_source (ls : List Literal) : Survive ls (source ls) := by
  induction ls with
  | nil => exact .nil
  | cons l ls ih => simpa [source] using Survive.cons (Spelling.kept) ih

-- --------------------------------------------------------------------
-- Literals by their marks

/-- The marks inside a literal, given by the gaps after its apostrophes. -/
def inside (gs : List Gap) : List (Mark × Gap) := gs.map (Mark.single, ·)

theorem count_gap (g : Gap) : g.text.count Byte.apostrophe = 0 := by
  rw [List.count_eq_zero]
  intro h
  exact absurd (g.bare _ h) nofun

theorem count_inside (gs : List Gap) : (spell (inside gs)).count Byte.apostrophe = gs.length := by
  induction gs with
  | nil => rfl
  | cons g gs ih =>
    rw [inside, List.map_cons, spell_cons, ← inside, Mark.byte, List.count_cons_self,
      List.count_append, count_gap, ih, List.length_cons, Nat.zero_add]

/-- A body is a gap followed by apostrophes with their gaps. -/
theorem exists_inside (l : Literal) : ∃ (h : Gap) (gs : List Gap),
    l.body = h.text ++ spell (inside gs) ∧ gs.length = l.apostrophes := by
  obtain ⟨h, m, hm⟩ := exists_spell l.body
  have hsingle : ∀ p ∈ m, p.1 = .single := by
    rintro ⟨q, g⟩ hp
    cases q with
    | single => rfl
    | double =>
      have hmem : Byte.quote ∈ spell m :=
        List.mem_flatMap.mpr ⟨_, hp, List.mem_cons_self⟩
      exact absurd rfl (l.closed _ (hm ▸ List.mem_append_right _ hmem)).1
  have hinside : m = inside (m.map Prod.snd) := by
    rw [inside, List.map_map]
    exact (List.map_id m).symm.trans (List.map_congr_left fun p hp => by
      rw [Function.comp, ← hsingle p hp]; rfl)
  refine ⟨h, m.map Prod.snd, hm.trans (by rw [← hinside]), ?_⟩
  rw [apostrophes, hm, List.count_append, count_gap, hinside, count_inside]
  simp [inside]

theorem source_cons {l : Literal} {ls : List Literal} {h : Gap} {gs : List Gap}
    {m : List (Mark × Gap)} (hl : l.body = h.text ++ spell (inside gs))
    (hls : source ls = spell m) :
    source (l :: ls) = spell ((.double, h) :: (inside gs ++ (.double, l.gap.toGap) :: m)) := by
  simp [source, hl, hls, spell, Mark.byte]

/-- The later pair closes in the first literal with an apostrophe, if it holds no other one. -/
theorem exists_marks (ls : List Literal) : ∃ m : List (Mark × Gap), source ls = spell m ∧
    (closePair? m).isSome =
      (ls.find? fun l => 0 < l.apostrophes).any fun l => l.apostrophes == 1 := by
  induction ls with
  | nil => exact ⟨[], rfl, rfl⟩
  | cons l ls ih =>
    obtain ⟨m, hls, hm⟩ := ih
    obtain ⟨h, gs, hl, hn⟩ := l.exists_inside
    refine ⟨_, source_cons hl hls, ?_⟩
    match gs with
    | [] => simpa [closePair?, inside, ← hn] using hm
    | [_] | _ :: _ :: _ => simp [closePair?, inside, ← hn]

-- --------------------------------------------------------------------
-- Spellings by marks

theorem escapeAll_gap (g : Gap) : escapeAll g.text = g.text := by
  have h : ∀ b ∈ g.text, (if b = Byte.apostrophe then escaped else [b]) = [b] := by
    rintro b hb
    rw [if_neg]
    rintro rfl
    exact absurd (g.bare _ hb) nofun
  rw [escapeAll, List.flatMap_def, List.map_congr_left h, ← List.flatMap_def,
    List.flatMap_singleton']

theorem swapAll_gap (g : Gap) : swapAll g.text = g.text := by
  have h : ∀ b ∈ g.text, (if b = Byte.apostrophe then Byte.quote else b) = b := by
    rintro b hb
    rw [if_neg]
    rintro rfl
    exact absurd (g.bare _ hb) nofun
  rw [swapAll, List.map_congr_left h, List.map_id']

theorem escapeAll_body (h g : Gap) (gs : List Gap) :
    escapeAll (h.text ++ spell (inside (g :: gs))) =
      h.text ++ (escaped ++ (g.text ++ escapeAll (spell (inside gs)))) := by
  rw [inside, List.map_cons, spell_cons, ← inside]
  simp only [escapeAll, List.flatMap_append, List.flatMap_cons, Mark.byte]
  rw [← escapeAll, ← escapeAll, escapeAll_gap, escapeAll_gap]
  rfl

theorem swapAll_body (h : Gap) (gs : List Gap) :
    swapAll (h.text ++ spell (inside gs)) = h.text ++ spell (gs.map (Mark.double, ·)) := by
  have hgs : swapAll (spell (inside gs)) = spell (gs.map (Mark.double, ·)) := by
    induction gs with
    | nil => rfl
    | cons g gs ih =>
      rw [inside, List.map_cons, spell_cons, ← inside, List.map_cons, spell_cons, ← ih]
      simp only [swapAll, List.map_cons, List.map_append]
      rw [← swapAll, swapAll_gap]
      rfl
  rw [← hgs, swapAll, List.map_append, ← swapAll, swapAll_gap]
  rfl

section
variable {l : Literal} {h : Gap} {gs : List Gap}

theorem spelling_plain (hl : l.body = h.text ++ spell (inside [])) :
    Spelling l.body (Byte.apostrophe :: (h.text ++ [Byte.apostrophe])) := by
  have hs := @Spelling.swapped l.body
  rwa [hl, swapAll_body, ← hl, List.map_nil, spell, List.flatMap_nil, List.append_nil] at hs

theorem spelling_escaped {g : Gap} (hl : l.body = h.text ++ spell (inside [g])) :
    Spelling l.body
      (Byte.apostrophe :: (h.text ++ (Rule.escaped ++ (g.text ++ [Byte.apostrophe])))) := by
  have hs := @Spelling.escaped l.body
  rw [hl, escapeAll_body, ← hl] at hs
  simpa [inside, escapeAll, spell] using hs

theorem spelling_swapped (hl : l.body = h.text ++ spell (inside gs)) :
    Spelling l.body
      (Byte.apostrophe :: (h.text ++ (spell (gs.map (Mark.double, ·)) ++ [Byte.apostrophe]))) := by
  have hs := @Spelling.swapped l.body
  rw [hl, swapAll_body, ← hl] at hs
  simpa using hs

end

/-- The first literal is respelled and the others are kept. -/
theorem survive_head {l : Literal} {t : Bytes} (ls : List Literal) (ht : Spelling l.body t) :
    Survive (l :: ls) (t ++ (l.gap.text ++ source ls)) :=
  .cons ht (survive_source ls)

theorem survive_plain {l : Literal} {h : Gap} (hl : l.body = h.text ++ spell (inside []))
    (ls : List Literal) :
    ∃ m, source (l :: ls) = spell m ∧ Survive (l :: ls) (spell (settle m)) := by
  cases ls with
  | nil =>
    refine ⟨_, source_cons hl (m := []) rfl, ?_⟩
    simpa [settle, inside, spell, Mark.byte, source] using survive_head [] (spelling_plain hl)
  | cons l' ls =>
    obtain ⟨m, hls, -⟩ := exists_marks ls
    obtain ⟨h', gs, hl', -⟩ := l'.exists_inside
    refine ⟨_, source_cons hl (source_cons hl' hls), ?_⟩
    cases gs with
    | nil =>
      have hs := Survive.cons (spelling_plain hl) (survive_head ls (spelling_plain hl'))
      simpa [settle, inside, spell_cons, Mark.byte, hls] using hs
    | cons g gs =>
      have hs := survive_head (l' :: ls) (spelling_plain hl)
      rw [source_cons hl' hls] at hs
      simpa [settle, inside, spell_cons, Mark.byte] using hs

/-- With four apostrophes in it, the first literal closes the later pair itself; with five or more
the pair is not closed at all. -/
theorem survive_long {l : Literal} {h a b c : Gap} {gs : List Gap} {ls : List Literal}
    (hl : l.body = h.text ++ spell (inside (a :: b :: c :: gs)))
    (hm : gs = [] → merges (l :: ls) = false) :
    ∃ m, source (l :: ls) = spell m ∧ Survive (l :: ls) (spell (settle m)) := by
  obtain ⟨m, hls, hclose⟩ := exists_marks ls
  have hsource := source_cons hl hls
  refine ⟨_, hsource, ?_⟩
  match gs with
  | [] =>
    have hnone : closePair? m = none := by
      rw [← Option.not_isSome_iff_eq_none, hclose]
      have hcount : l.apostrophes = 3 := by
        rw [apostrophes, hl, List.count_append, count_gap, count_inside]
        rfl
      simpa [merges, hcount] using hm rfl
    have hs := survive_source (l :: ls)
    rw [hsource] at hs
    simpa [settle, inside, closePair?, hnone] using hs
  | [d] =>
    have hs := survive_head ls (spelling_swapped hl)
    simpa [settle, inside, closePair?, spell_nil, spell_cons, Mark.byte, hls] using hs
  | d :: e :: gs =>
    have hs := survive_source (l :: ls)
    rw [hsource] at hs
    simpa [settle, inside, closePair?] using hs

theorem survive_of_not_merges {ls : List Literal} (hm : merges ls = false) :
    ∃ m, source ls = spell m ∧ Survive ls (spell (settle m)) := by
  cases ls with
  | nil => exact ⟨[], rfl, .nil⟩
  | cons l ls =>
    obtain ⟨h, gs, hl, -⟩ := l.exists_inside
    match gs with
    | [] => exact survive_plain hl ls
    | [a] =>
      obtain ⟨m, hls, -⟩ := exists_marks ls
      refine ⟨_, source_cons hl hls, ?_⟩
      have hs := survive_head ls (spelling_escaped hl)
      simpa [settle, inside, spell_cons, Gap.escape, Rule.escaped, Mark.byte, hls] using hs
    | [a, b] =>
      obtain ⟨m, hls, -⟩ := exists_marks ls
      refine ⟨_, source_cons hl hls, ?_⟩
      have hs := survive_head ls (spelling_swapped hl)
      simpa [settle, inside, spell_nil, spell_cons, Mark.byte, hls] using hs
    | a :: b :: c :: gs => exact survive_long hl fun _ => hm

-- --------------------------------------------------------------------
-- Merged literals

/-- The first literal opens with an apostrophe and ends in a double quote. -/
theorem not_survive_of_merges {ls : List Literal} (hm : merges ls = true) :
    ∃ m, source ls = spell m ∧ ¬ Survive ls (spell (settle m)) := by
  cases ls with
  | nil => exact absurd hm nofun
  | cons l ls =>
    simp only [merges, Bool.and_eq_true, beq_iff_eq] at hm
    obtain ⟨h, gs, hl, hn⟩ := l.exists_inside
    obtain ⟨m, hls, hclose⟩ := exists_marks ls
    obtain ⟨m', hm'⟩ := Option.isSome_iff_exists.mp (hclose.trans hm.2)
    rw [hm.1, List.length_eq_three] at hn
    obtain ⟨a, b, c, rfl⟩ := hn
    refine ⟨_, source_cons hl hls, ?_⟩
    have hout : spell (settle ((.double, h) :: (inside [a, b, c] ++ (.double, l.gap.toGap) :: m))) =
        Byte.apostrophe :: (h.text ++ spell [(.double, a), (.double, b), (.double, c)] ++
          Byte.quote :: (l.gap.text ++ spell m')) := by
      simp [settle, inside, closePair?, hm', spell_nil, spell_cons, Mark.byte]
    rw [hout]
    generalize hs : Byte.apostrophe :: (_ ++ _) = s
    rintro (_ | ⟨hspelling, -⟩)
    cases hspelling with
    | kept => exact absurd (List.cons.inj hs).1 (by decide)
    | escaped =>
      rw [hl, escapeAll_body, spell_cons] at hs
      simp only [List.cons_append, List.append_assoc, List.cons.injEq, List.append_cancel_left_eq,
        Rule.escaped] at hs
      exact absurd hs.2.1 (by decide)
    | swapped =>
      rw [hl, swapAll_body] at hs
      simp only [List.map_cons, List.map_nil, List.cons_append, List.append_assoc, List.cons.injEq,
        List.append_cancel_left_eq, List.nil_append] at hs
      exact absurd hs.2.1 (by decide)

-- --------------------------------------------------------------------
-- Lines of literals

theorem normalizeQuotes_source (lead : LineGap) {ls : List Literal} {m : List (Mark × Gap)}
    (h : source ls = spell m) :
    normalizeQuotes (lead.text ++ source ls) = lead.text ++ spell (settle m) := by
  have hline : IsLine (lead.text ++ source ls) := by
    rw [IsLine, List.mem_append, not_or]
    exact ⟨lead.isLine, isLine_source ls⟩
  rw [normalizeQuotes_eq, onLines_of_isLine _ hline, h, normalizeLine_spell]

theorem not_survive_normalizeQuotes (lead : LineGap) {ls : List Literal} (hm : merges ls = true) :
    ¬ ∃ out, normalizeQuotes (lead.text ++ source ls) = lead.text ++ out ∧ Survive ls out := by
  rintro ⟨out, hout, hs⟩
  obtain ⟨m, hls, hnot⟩ := not_survive_of_merges hm
  rw [normalizeQuotes_source lead hls, List.append_cancel_left_eq] at hout
  exact hnot (hout ▸ hs)

/-- The literals of a line stay apart, each of them in some spelling, unless the first one takes an
apostrophe from a later one. -/
theorem survive_iff (lead : LineGap) (ls : List Literal) :
    (∃ out, normalizeQuotes (lead.text ++ source ls) = lead.text ++ out ∧ Survive ls out) ↔
      merges ls = false := by
  constructor
  · intro hs
    rw [← Bool.not_eq_true]
    exact fun hm => not_survive_normalizeQuotes lead hm hs
  · intro hm
    obtain ⟨m, hls, hs⟩ := survive_of_not_merges hm
    exact ⟨_, normalizeQuotes_source lead hls, hs⟩

theorem survive_fails : ∃ (lead : LineGap) (ls : List Literal),
    lead.text ++ source ls = bytes "\"a'b'c'd\" + \"e'f\"" ∧
    normalizeQuotes (lead.text ++ source ls) = bytes "'a\"b\"c\"d\" + \"e\"f'" ∧
    ¬ ∃ out, normalizeQuotes (lead.text ++ source ls) = lead.text ++ out ∧ Survive ls out := by
  let lead : LineGap := ⟨.empty, List.not_mem_nil⟩
  let plus : LineGap :=
    ⟨⟨bytes " + ", List.all_iff_forall_prop.mp (by decide)⟩, by unfold IsLine; decide⟩
  let ls : List Literal :=
    [⟨bytes "a'b'c'd", List.all_iff_forall_prop.mp (by decide), plus⟩,
      ⟨bytes "e'f", List.all_iff_forall_prop.mp (by decide), lead⟩]
  have hm : merges ls = true := by decide
  exact ⟨lead, ls, by decide, by decide, not_survive_normalizeQuotes lead hm⟩

end Literal

end Restyler.Rule
