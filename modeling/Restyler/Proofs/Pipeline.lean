import Restyler.Pipeline
import Restyler.Proofs.Conditionals
import Restyler.Proofs.Keywords
import Restyler.Proofs.Respelled

/-!
# Applying the pipeline again

A line is `Tidy` when keyword spacing and splitting have nothing to do in it. The pipeline makes
every line tidy and respelling keeps it so, hence a second application only respells quotes, and a
third one changes nothing.

The second application can change something: quotes are settled for whole lines, and a statement
that is moved to a line of its own starts a line whose quotes were never looked at on their own.
This is the only way.
-/

namespace Restyler

namespace Rule

-- --------------------------------------------------------------------
-- Quotes against the other two rules

theorem Inert.of_isIndentation {w : Bytes} (hw : IsIndentation w) : Inert w := by
  intro b hb
  have hi := hw b hb
  rw [isIndent, Bool.or_eq_true, beq_iff_eq, beq_iff_eq] at hi
  rcases hi with rfl | rfl <;> decide

theorem marks_isIndentation {w : Bytes} (hw : IsIndentation w) : marks w = [] :=
  List.filterMap_eq_nil_iff.mpr fun b hb => (Inert.of_isIndentation hw b hb).1

theorem marks_spaceFrom (n : Nat) (s : Bytes) : marks (spaceFrom n s) = marks s := by
  fun_induction spaceFrom n s with
  | case1 => rfl
  | case2 b s k hk ih => rw [marks_cons, ih, ← marks_cons]
  | case3 b s hk ih => rw [marks_cons, ih, ← marks_cons]
  | case4 b s ih => rw [marks_cons, marks_cons b, ih, ← marks_cons]; rfl
  | case5 n b s ih => rw [marks_cons, ih, ← marks_cons]

theorem spacedKeywords_inert : ∀ k ∈ spacedKeywords, Inert (k ++ bytes "(") := by decide

theorem Spaced.of_respelled {s t : Bytes} (h : Respelled s t) (hs : Spaced s) : Spaced t :=
  fun k hk hi => hs k hk (h.isInfix (spacedKeywords_inert k hk) hi)

theorem IsOneLiner.of_respelled {keyword s t : Bytes} (hk : Inert keyword) (h : Respelled s t)
    (ht : IsOneLiner keyword t) : IsOneLiner keyword s := by
  obtain ⟨w, test, rest, hw, rfl⟩ := ht
  obtain ⟨u, rfl, hu⟩ := h.of_append (.of_isIndentation hw)
  obtain ⟨v, rfl, hv⟩ := hu.of_append (by decide)
  have hpattern : Inert (bytes ") " ++ keyword) := by
    intro b hb
    rcases List.mem_append.mp hb with hb | hb
    · exact (by decide : Inert (bytes ") ")) b hb
    · exact hk b hb
  obtain ⟨test', rest', rfl⟩ := hv.isInfix hpattern ⟨test, rest, rfl⟩
  exact ⟨w, test', rest', hw, rfl⟩

-- --------------------------------------------------------------------
-- Tidy lines

/-- A line in which keyword spacing and splitting have nothing to do. -/
structure Tidy (l : Bytes) : Prop where
  spaced : Spaced l
  noReturn : ¬ IsOneLiner (bytes "return") l
  noThrow : ¬ IsOneLiner (bytes "throw") l

theorem Tidy.normalizeLine {l : Bytes} (h : Tidy l) : Tidy (normalizeLine l) where
  spaced := h.spaced.of_respelled (normalizeLine_respelled l)
  noReturn ht := h.noReturn (ht.of_respelled (by decide) (normalizeLine_respelled l))
  noThrow ht := h.noThrow (ht.of_respelled (by decide) (normalizeLine_respelled l))

theorem spacedKeywords_head {k : Bytes} (hk : k ∈ spacedKeywords) :
    ∃ c v, k ++ bytes "(" = c :: v ∧ isIndent c = false := by
  simp only [spacedKeywords, List.mem_cons, List.not_mem_nil, or_false] at hk
  rcases hk with rfl | rfl | rfl <;> exact ⟨_, _, rfl, rfl⟩

theorem tidy_normalizeQuotes {s : Bytes} (h : ∀ l ∈ lines s, Tidy l) :
    ∀ l ∈ lines (normalizeQuotes s), Tidy l := by
  rw [normalizeQuotes_eq, lines_onLines_of_isLine fun _ => isLine_normalizeLine]
  simp only [List.mem_map]
  rintro _ ⟨l, hl, rfl⟩
  exact (h l hl).normalizeLine

theorem spaceKeywords_of_tidy {s : Bytes} (h : ∀ l ∈ lines s, Tidy l) : spaceKeywords s = s :=
  onLines_eq_self fun l hl => spaceFrom_of_spaced (h l hl).spaced

theorem spaced_of_tidy {s : Bytes} (h : ∀ l ∈ lines s, Tidy l) : Spaced s := by
  intro k hk hi
  obtain ⟨c, v, hcv, -⟩ := spacedKeywords_head hk
  have hline : IsLine (k ++ bytes "(") := (by decide :
    ∀ k ∈ spacedKeywords, Byte.newline ∉ k ++ bytes "(") k hk
  obtain ⟨l, hl, hil⟩ := infix_lines (by simp [hcv]) hline hi
  exact (h l hl).spaced k hk hil

theorem splitConditionals_of_tidy {s : Bytes} (unit : Bytes) (h : ∀ l ∈ lines s, Tidy l) :
    splitConditionals unit s = s :=
  splitConditionals_of_not_isOneLiner fun l hl => ⟨(h l hl).noReturn, (h l hl).noThrow⟩

/-- The pieces of a spaced line are tidy. -/
theorem tidy_splitConditionals {unit l : Bytes} (hu : IsIndentation unit) (hl : IsLine l)
    (hs : Spaced l) : ∀ m ∈ lines (splitConditionals unit l), Tidy m := by
  intro m hm
  rw [lines_splitConditionals hu hl] at hm
  rcases List.mem_cons.mp hm with rfl | hm
  · obtain ⟨hr, ht⟩ := not_isOneLiner_stem l
    exact ⟨hs.of_infix (stem_isPrefix l).isInfix, hr, ht⟩
  · obtain ⟨t, ht, rfl⟩ := List.mem_map.mp hm
    have hw := (isIndentation_takeWhile l).append hu
    refine ⟨fun k hk hi => ?_, not_isOneLiner_statement ht hw _, not_isOneLiner_statement ht hw _⟩
    -- No keyword starts with a byte of the indentation.
    obtain ⟨c, v, hcv, hc⟩ := spacedKeywords_head hk
    rw [hcv] at hi
    have hit := infix_of_infix_append (hw.notMem hc) hi
    exact hs k hk (hcv ▸ hit.trans (mem_statements ht).2)

end Rule

namespace Pipeline

open Rule

theorem isIndentation_unit (width : Int) : IsIndentation (ofWidth width).unit := by
  intro b hb
  unfold ofWidth at hb
  split at hb
  · have hspace : b = Byte.space := by simpa using hb
    rw [hspace]
    rfl
  · rw [List.eq_of_mem_replicate hb]
    rfl

theorem apply_eq (p : Pipeline) (s : Bytes) :
    p.apply s = splitConditionals p.unit (spaceKeywords (normalizeQuotes s)) := by
  simp [apply, applyEach, steps, Step.apply]

/-- A line before it is split. -/
def prepared (l : Bytes) : Bytes := spaceFrom 0 (normalizeLine l)

theorem isLine_prepared {l : Bytes} (h : IsLine l) : IsLine (prepared l) :=
  isLine_spaceFrom 0 (isLine_normalizeLine h)

theorem lines_apply (p : Pipeline) (s : Bytes) :
    lines (p.apply s) =
      (lines s).flatMap fun l => lines (splitConditionals p.unit (prepared l)) := by
  rw [apply_eq, splitConditionals_eq, spaceKeywords, normalizeQuotes_eq, lines_onLines,
    lines_onLines_of_isLine fun _ => isLine_spaceFrom 0,
    lines_onLines_of_isLine fun _ => isLine_normalizeLine, List.flatMap_map, List.flatMap_map]
  rfl

theorem tidy_apply (width : Int) (s : Bytes) : ∀ l ∈ lines ((ofWidth width).apply s), Tidy l := by
  intro m hm
  rw [lines_apply] at hm
  obtain ⟨l, hl, hm⟩ := List.mem_flatMap.mp hm
  exact tidy_splitConditionals (isIndentation_unit width)
    (isLine_prepared (isLine_of_mem_lines hl)) (spaced_spaceFrom _) m hm

/-- On tidy text the pipeline respells quotes and does nothing else. -/
theorem apply_of_tidy (p : Pipeline) {s : Bytes} (h : ∀ l ∈ lines s, Tidy l) :
    p.apply s = normalizeQuotes s := by
  have hq := tidy_normalizeQuotes h
  rw [apply_eq, spaceKeywords_of_tidy hq, splitConditionals_of_tidy p.unit hq]

theorem mem_changed_iff (p : Pipeline) (s : Bytes) (step : Step) :
    step ∈ (p.applyEach s).2 ↔
      match step with
      | .quotes => normalizeQuotes s ≠ s
      | .keywordParens => spaceKeywords (normalizeQuotes s) ≠ normalizeQuotes s
      | .conditionals =>
        splitConditionals p.unit (spaceKeywords (normalizeQuotes s)) ≠
          spaceKeywords (normalizeQuotes s) := by
  have snoc (c : Prop) [Decidable c] (steps : List Step) (last : Step) :
      (step ∈ if c then steps else steps ++ [last]) ↔ step ∈ steps ∨ (step = last ∧ ¬ c) := by
    split <;> simp [*]
  simp only [applyEach, steps, List.foldl_cons, List.foldl_nil, snoc]
  cases step <;> simp [Step.apply]

/-- On tidy text no other step than that of the quotes reports a change. -/
theorem notMem_changed (p : Pipeline) {s : Bytes} (h : ∀ l ∈ lines s, Tidy l) :
    .keywordParens ∉ (p.applyEach s).2 ∧ .conditionals ∉ (p.applyEach s).2 := by
  have hq := tidy_normalizeQuotes h
  have hk := spaceKeywords_of_tidy hq
  simp only [mem_changed_iff, hk, splitConditionals_of_tidy p.unit hq, ne_eq, not_true_eq_false,
    not_false_eq_true, and_self]

-- --------------------------------------------------------------------
-- The second application and the third

/-- The result of the pipeline holds no unspaced keyword and no line to split, so that a second
application only respells quotes, and a third one changes nothing. -/
theorem apply_apply_settles (width : Int) (s : Bytes) :
    let p := ofWidth width
    (∀ k ∈ [bytes "function(", bytes "catch(", bytes "typeof("], ¬ k <:+: p.apply s) ∧
    (∀ l ∈ lines (p.apply s), ¬ IsOneLiner (bytes "return") l ∧ ¬ IsOneLiner (bytes "throw") l) ∧
    (.keywordParens ∉ (p.applyEach (p.apply s)).2 ∧ .conditionals ∉ (p.applyEach (p.apply s)).2) ∧
    p.apply (p.apply s) = normalizeQuotes (p.apply s) ∧
    p.apply (p.apply (p.apply s)) = p.apply (p.apply s) := by
  intro p
  have htidy : ∀ l ∈ lines (p.apply s), Tidy l := tidy_apply width s
  have htwice : p.apply (p.apply s) = normalizeQuotes (p.apply s) := apply_of_tidy p htidy
  refine ⟨?_, fun l hl => ⟨(htidy l hl).noReturn, (htidy l hl).noThrow⟩,
    notMem_changed p htidy, htwice, ?_⟩
  · have hk : [bytes "function(", bytes "catch(", bytes "typeof("] =
        spacedKeywords.map (· ++ bytes "(") := by decide
    rw [hk, List.forall_mem_map]
    exact spaced_of_tidy htidy
  · rw [htwice, apply_of_tidy p (tidy_normalizeQuotes htidy), normalizeQuotes_normalizeQuotes]

-- --------------------------------------------------------------------
-- When the second application changes something

theorem respells_prepared (l : Bytes) : respells (marks (prepared l)) = false := by
  rw [prepared, marks_spaceFrom]
  exact respells_normalizeLine l

/-- What is left of a line in its place starts as the whole line does, and keeps its quotes. -/
theorem normalizeLine_stem (l : Bytes) : normalizeLine (stem (prepared l)) = stem (prepared l) := by
  rw [normalizeLine_eq_self_iff, ← Bool.not_eq_true]
  intro h
  obtain ⟨rest, hrest⟩ := stem_isPrefix (prepared l)
  have hlong := respells_append (marks rest) h
  rw [← marks_append, hrest, respells_prepared] at hlong
  exact absurd hlong nofun

theorem normalizeLine_indented {w : Bytes} (hw : IsIndentation w) (t : Bytes) :
    normalizeLine (w ++ t) = w ++ t ↔ respells (marks t) = false := by
  rw [normalizeLine_eq_self_iff, marks_append, marks_isIndentation hw, List.nil_append]

/-- The pipeline is idempotent on a text exactly if no statement that it moves to a line of its own
starts with quotes that are respelled there. -/
theorem apply_apply_eq_iff (width : Int) (s : Bytes) :
    (ofWidth width).apply ((ofWidth width).apply s) = (ofWidth width).apply s ↔
      ∀ l ∈ lines s, ∀ t ∈ statements (prepared l), respells (marks t) = false := by
  have hu := isIndentation_unit width
  rw [apply_of_tidy _ (tidy_apply width s), normalizeQuotes_eq,
    onLines_eq_self_iff fun _ => isLine_normalizeLine, lines_apply, List.forall_mem_flatMap]
  refine forall₂_congr fun l hl => ?_
  rw [lines_splitConditionals hu (isLine_prepared (isLine_of_mem_lines hl)), List.forall_mem_cons,
    List.forall_mem_map]
  simp only [normalizeLine_stem, true_and,
    normalizeLine_indented ((isIndentation_takeWhile _).append hu)]

/-- Two literals in the test are respelled first; the third one starts a line of its own. -/
theorem apply_apply_ne :
    let s := bytes "if (a == \"x\" && b == \"y\") return \"z\";"
    standard.apply s = bytes "if (a == 'x' && b == 'y')\n  return \"z\";" ∧
    standard.apply (standard.apply s) ≠ standard.apply s := by
  decide

end Pipeline

end Restyler
