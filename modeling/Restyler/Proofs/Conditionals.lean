import Mathlib.Data.List.Infix
import Mathlib.Data.List.TakeWhile
import Restyler.Proofs.Lines
import Restyler.Rule.Conditionals

/-!
# Conditionals on one line

`IsOneLiner keyword line` is the shape that the rule looks for, said without the scan for the first
place where it can be split. Splitting a line leaves a prefix of it, its stem, and moves the
statements behind to lines of their own. None of the pieces can be split again: the stem holds no
earlier place, and a statement starts with its keyword.
-/

namespace Restyler

-- --------------------------------------------------------------------
-- The first occurrence of a pattern

theorem cut_eq_none {p s : Bytes} (hp : p ≠ []) : cut p s = none ↔ ¬ p <:+: s := by
  induction s with
  | nil => simp [cut, hp]
  | cons b s ih =>
    rw [cut, List.infix_cons_iff, not_or, ← ih]
    cases h : p.isPrefixOf? (b :: s) with
    | none =>
      have hn : ¬ p <+: b :: s := by
        rintro ⟨rest, hr⟩
        rw [List.isPrefixOf?_eq_some_iff_append_eq.mpr hr] at h
        exact absurd h nofun
      simp [hn]
    | some rest =>
      have hs : p <+: b :: s := ⟨rest, List.isPrefixOf?_eq_some_iff_append_eq.mp h⟩
      simp [hs]

/-- What is cut out is an occurrence, and none starts before it. -/
theorem cut_eq_some {p s x y : Bytes} (hp : p ≠ []) (h : cut p s = some (x, y)) :
    s = x ++ p ++ y ∧ ¬ p <:+: x ++ p.dropLast := by
  induction s generalizing x with
  | nil => simp [cut, hp] at h
  | cons b s ih =>
    rw [cut] at h
    cases hpre : p.isPrefixOf? (b :: s) with
    | some rest =>
      rw [hpre] at h
      obtain ⟨rfl, rfl⟩ := Prod.mk.inj (Option.some.inj h)
      refine ⟨(List.isPrefixOf?_eq_some_iff_append_eq.mp hpre).symm, fun hi => ?_⟩
      have hl := hi.length_le
      have := List.length_pos_iff.mpr hp
      simp only [List.nil_append, List.length_dropLast] at hl
      omega
    | none =>
      rw [hpre] at h
      obtain ⟨⟨x', y'⟩, hcut, heq⟩ := Option.map_eq_some_iff.mp h
      obtain ⟨rfl, rfl⟩ := Prod.mk.inj heq
      obtain ⟨rfl, hfirst⟩ := ih hcut
      refine ⟨rfl, fun hi => ?_⟩
      rcases List.infix_cons_iff.mp hi with hq | hi
      · have hpl : p.dropLast <+: p := List.dropLast_prefix p
        have hlong : b :: (x' ++ p.dropLast) <+: b :: (x' ++ p ++ y') := by
          rw [List.append_assoc]
          exact List.cons_prefix_cons.mpr ⟨rfl, (List.prefix_append_right_inj _).mpr
            (hpl.trans (List.prefix_append _ _))⟩
        obtain ⟨rest, hr⟩ := hq.trans hlong
        rw [List.isPrefixOf?_eq_some_iff_append_eq.mpr hr] at hpre
        exact absurd hpre nofun
      · exact hfirst hi

namespace Rule

-- --------------------------------------------------------------------
-- Indentation

def IsIndentation (w : Bytes) : Prop := ∀ b ∈ w, isIndent b = true

-- Byte by byte of the text, not over all bytes that there are.
instance : DecidablePred IsIndentation := List.decidableBAll fun b => isIndent b = true

theorem isIndentation_takeWhile (l : Bytes) : IsIndentation (l.takeWhile isIndent) :=
  fun _ hb => List.mem_takeWhile_imp hb

theorem IsIndentation.append {v w : Bytes} (hv : IsIndentation v) (hw : IsIndentation w) :
    IsIndentation (v ++ w) := by
  intro b hb
  rcases List.mem_append.mp hb with hb | hb
  · exact hv b hb
  · exact hw b hb

theorem IsIndentation.notMem {w : Bytes} (hw : IsIndentation w) {b : UInt8}
    (hb : isIndent b = false) : b ∉ w := by
  intro hmem
  rw [hw b hmem] at hb
  exact absurd hb nofun

theorem takeWhile_indentation {w t : Bytes} (hw : IsIndentation w) {c : UInt8}
    (hc : isIndent c = false) :
    (w ++ c :: t).takeWhile isIndent = w ∧ (w ++ c :: t).dropWhile isIndent = c :: t := by
  rw [List.takeWhile_append_of_pos hw, List.dropWhile_append_of_pos hw]
  simp [hc]

-- --------------------------------------------------------------------
-- The shape that is split

/-- A line `if (test) keyword ...`, indented or not. -/
def IsOneLiner (keyword line : Bytes) : Prop :=
  ∃ w test rest, IsIndentation w ∧
    line = w ++ (bytes "if (" ++ (test ++ (bytes ") " ++ keyword) ++ rest))

theorem isOneLiner_iff {keyword line : Bytes} :
    IsOneLiner keyword line ↔ ∃ body, bytes "if (" ++ body = line.dropWhile isIndent ∧
      bytes ") " ++ keyword <:+: body := by
  constructor
  · rintro ⟨w, test, rest, hw, rfl⟩
    exact ⟨_, (takeWhile_indentation hw (by decide)).2.symm, test, rest, rfl⟩
  · rintro ⟨body, hbody, test, rest, rfl⟩
    refine ⟨_, test, rest, isIndentation_takeWhile line, ?_⟩
    rw [hbody, List.takeWhile_append_dropWhile]

theorem IsOneLiner.of_prefix {keyword l m : Bytes} (h : IsOneLiner keyword l) (hp : l <+: m) :
    IsOneLiner keyword m := by
  obtain ⟨w, test, rest, hw, rfl⟩ := h
  obtain ⟨more, rfl⟩ := hp
  exact ⟨w, test, rest ++ more, hw, by simp only [List.append_assoc]⟩

/-- A line that starts with another letter than that of `if`. -/
theorem not_isOneLiner {keyword w t : Bytes} (hw : IsIndentation w) {c : UInt8}
    (hc : isIndent c = false ∧ c ≠ 0x69) : ¬ IsOneLiner keyword (w ++ c :: t) := by
  rw [isOneLiner_iff, (takeWhile_indentation hw hc.1).2]
  rintro ⟨body, hbody, -⟩
  exact hc.2 (List.cons.inj hbody).1.symm

-- --------------------------------------------------------------------
-- Stems and statements

/-- The stem of a line that is split and the statement behind it, from its keyword on. -/
def detach? (keyword line : Bytes) : Option (Bytes × Bytes) :=
  match (bytes "if (").isPrefixOf? (line.dropWhile isIndent) with
  | none => none
  | some body =>
    (cut (bytes ") " ++ keyword) body).map fun (test, rest) =>
      (line.takeWhile isIndent ++ bytes "if (" ++ test ++ bytes ")", keyword ++ rest)

theorem splitLine_eq (unit keyword line : Bytes) :
    splitLine unit keyword line =
      match detach? keyword line with
      | none => line
      | some (stem, statement) =>
        stem ++ Byte.newline :: (line.takeWhile isIndent ++ unit ++ statement) := by
  unfold splitLine detach?
  cases (bytes "if (").isPrefixOf? (line.dropWhile isIndent) with
  | none => rfl
  | some body =>
    cases h : cut (bytes ") " ++ keyword) body with
    | none => simp [h]
    | some p => simp [h]

theorem detach?_eq_none {keyword line : Bytes} :
    detach? keyword line = none ↔ ¬ IsOneLiner keyword line := by
  rw [isOneLiner_iff, detach?]
  cases h : (bytes "if (").isPrefixOf? (line.dropWhile isIndent) with
  | none =>
    refine ⟨fun _ => ?_, fun _ => rfl⟩
    rintro ⟨body, hbody, -⟩
    rw [List.isPrefixOf?_eq_some_iff_append_eq.mpr hbody] at h
    exact absurd h nofun
  | some body =>
    have hbody := List.isPrefixOf?_eq_some_iff_append_eq.mp h
    simp only [Option.map_eq_none_iff, cut_eq_none (p := bytes ") " ++ keyword) nofun]
    refine not_congr ⟨fun hi => ⟨body, hbody, hi⟩, ?_⟩
    rintro ⟨body', hbody', hi⟩
    rwa [← List.append_cancel_left (hbody'.trans hbody.symm)]

theorem splitLine_of_not_isOneLiner {unit keyword line : Bytes} (h : ¬ IsOneLiner keyword line) :
    splitLine unit keyword line = line := by
  rw [splitLine_eq, detach?_eq_none.mpr h]

/-- The stem is what stands before the space in front of the statement, with the same indentation,
and it cannot be split at the same keyword. -/
theorem detach?_eq_some {keyword line stem statement : Bytes}
    (h : detach? keyword line = some (stem, statement)) :
    line = stem ++ Byte.space :: statement ∧ keyword <+: statement ∧
      stem.takeWhile isIndent = line.takeWhile isIndent ∧ ¬ IsOneLiner keyword stem := by
  unfold detach? at h
  split at h
  · exact absurd h nofun
  · next body hbody =>
    have hbody := List.isPrefixOf?_eq_some_iff_append_eq.mp hbody
    obtain ⟨⟨test, rest⟩, hcut, heq⟩ := Option.map_eq_some_iff.mp h
    obtain ⟨rfl, rfl⟩ := Prod.mk.inj heq
    obtain ⟨rfl, hfirst⟩ := cut_eq_some (by exact nofun) hcut
    have hw := isIndentation_takeWhile line
    have hassoc : line.takeWhile isIndent ++ bytes "if (" ++ test ++ bytes ")" =
        line.takeWhile isIndent ++ (bytes "if (" ++ (test ++ bytes ")")) := by
      simp only [List.append_assoc]
    obtain ⟨hindent, hbare⟩ := takeWhile_indentation (c := 0x69)
      (t := (bytes "if (").tail ++ (test ++ bytes ")")) hw rfl
    rw [hassoc]
    refine ⟨?_, List.prefix_append _ _, hindent, ?_⟩
    · have hline := List.takeWhile_append_dropWhile (p := isIndent) (l := line)
      rw [← hbody] at hline
      refine hline.symm.trans ?_
      simp only [List.append_assoc]
      rfl
    · rw [isOneLiner_iff]
      rintro ⟨body, hbody, hi⟩
      rw [List.append_cancel_left (hbody.trans hbare)] at hi
      -- The closing parenthesis of the test is the first byte of the pattern.
      have hshort : test ++ bytes ")" <+: test ++ (bytes ") " ++ keyword).dropLast := by
        refine (List.prefix_append_right_inj test).mpr ?_
        cases keyword <;> exact List.cons_prefix_cons.mpr ⟨rfl, List.nil_prefix⟩
      exact hfirst (hi.trans hshort.isInfix)

/-- What splitting at a keyword leaves of a line in its place. -/
def stemAt (keyword line : Bytes) : Bytes := ((detach? keyword line).map Prod.fst).getD line

/-- The statement that splitting at a keyword moves to a line of its own. -/
def statementAt? (keyword line : Bytes) : Option Bytes := (detach? keyword line).map Prod.snd

section
variable {keyword line : Bytes}

theorem stemAt_isPrefix (keyword line : Bytes) : stemAt keyword line <+: line := by
  cases h : detach? keyword line with
  | none => simp [stemAt, h]
  | some p => exact ⟨_, by rw [stemAt, h]; exact (detach?_eq_some h).1.symm⟩

theorem takeWhile_stemAt (keyword line : Bytes) :
    (stemAt keyword line).takeWhile isIndent = line.takeWhile isIndent := by
  cases h : detach? keyword line with
  | none => simp [stemAt, h]
  | some p => rw [stemAt, h]; exact (detach?_eq_some h).2.2.1

theorem not_isOneLiner_stemAt (keyword line : Bytes) :
    ¬ IsOneLiner keyword (stemAt keyword line) := by
  cases h : detach? keyword line with
  | none => simpa [stemAt, h] using detach?_eq_none.mp h
  | some p => rw [stemAt, h]; exact (detach?_eq_some h).2.2.2

theorem statementAt?_eq_some {statement : Bytes} (h : statementAt? keyword line = some statement) :
    keyword <+: statement ∧ statement <:+ line := by
  obtain ⟨⟨stem, _⟩, hd, rfl⟩ := Option.map_eq_some_iff.mp h
  obtain ⟨rfl, hk, -⟩ := detach?_eq_some hd
  exact ⟨hk, stem ++ [Byte.space], by simp⟩

end

theorem lines_splitLine {unit keyword line : Bytes} (hu : IsLine unit) (hl : IsLine line) :
    lines (splitLine unit keyword line) = stemAt keyword line ::
      (statementAt? keyword line).toList.map (line.takeWhile isIndent ++ unit ++ ·) := by
  rw [splitLine_eq, stemAt, statementAt?]
  cases h : detach? keyword line with
  | none => exact lines_of_isLine hl
  | some p =>
    obtain ⟨stem, statement⟩ := p
    obtain ⟨rfl, -⟩ := detach?_eq_some h
    simp only [IsLine, List.mem_append, List.mem_cons, not_or] at hl hu
    have htail : Byte.newline ∉
        (stem ++ Byte.space :: statement).takeWhile isIndent ++ unit ++ statement := by
      simp only [List.mem_append, not_or]
      exact ⟨⟨(isIndentation_takeWhile _).notMem rfl, hu⟩, hl.2.2⟩
    show splitOn _ _ = _
    rw [splitOn_append_sep, splitOn_of_notMem hl.1, splitOn_of_notMem htail]
    rfl

-- --------------------------------------------------------------------
-- Both keywords

/-- What splitting leaves of a line in its place. -/
def stem (line : Bytes) : Bytes := stemAt (bytes "throw") (stemAt (bytes "return") line)

/-- The statements that splitting moves to lines of their own, in order. A `throw` is looked for
before the `return` only. -/
def statements (line : Bytes) : List Bytes :=
  (statementAt? (bytes "throw") (stemAt (bytes "return") line)).toList ++
    (statementAt? (bytes "return") line).toList

theorem stem_isPrefix (line : Bytes) : stem line <+: line :=
  (stemAt_isPrefix _ _).trans (stemAt_isPrefix _ line)

/-- A statement is part of the line, and starts with its keyword. -/
theorem mem_statements {line t : Bytes} (h : t ∈ statements line) :
    (bytes "return" <+: t ∨ bytes "throw" <+: t) ∧ t <:+: line := by
  rcases List.mem_append.mp h with h | h
  · obtain ⟨hk, hs⟩ := statementAt?_eq_some (Option.mem_toList.mp h)
    exact ⟨.inr hk, hs.isInfix.trans (stemAt_isPrefix _ line).isInfix⟩
  · obtain ⟨hk, hs⟩ := statementAt?_eq_some (Option.mem_toList.mp h)
    exact ⟨.inl hk, hs.isInfix⟩

theorem not_isOneLiner_stem (line : Bytes) :
    ¬ IsOneLiner (bytes "return") (stem line) ∧ ¬ IsOneLiner (bytes "throw") (stem line) :=
  ⟨fun h => not_isOneLiner_stemAt _ line (h.of_prefix (stemAt_isPrefix _ _)),
    not_isOneLiner_stemAt _ _⟩

theorem not_isOneLiner_statement {line t w : Bytes} (h : t ∈ statements line)
    (hw : IsIndentation w) (keyword : Bytes) : ¬ IsOneLiner keyword (w ++ t) := by
  rcases (mem_statements h).1 with ⟨rest, rfl⟩ | ⟨rest, rfl⟩
  · exact not_isOneLiner hw (c := 0x72) (by decide)
  · exact not_isOneLiner hw (c := 0x74) (by decide)

theorem lines_splitConditionals {unit line : Bytes} (hu : IsIndentation unit) (hl : IsLine line) :
    lines (splitConditionals unit line) =
      stem line :: (statements line).map (line.takeWhile isIndent ++ unit ++ ·) := by
  have hline : IsLine unit := hu.notMem rfl
  have hstem : IsLine (stemAt (bytes "return") line) :=
    fun h => hl ((stemAt_isPrefix _ line).subset h)
  rw [splitConditionals, splitBefore, splitBefore, onLines_of_isLine _ hl, lines_onLines,
    lines_splitLine hline hl, List.flatMap_cons, lines_splitLine hline hstem, takeWhile_stemAt,
    statements, List.map_append, stem, List.cons_append]
  congr 2
  -- The statement behind a `return` starts with it, so it is not split at a `throw`.
  cases h : statementAt? (bytes "return") line with
  | none => rfl
  | some t =>
    have hmem : t ∈ statements line := by simp [statements, h]
    have hw : IsIndentation (line.takeWhile isIndent ++ unit) :=
      (isIndentation_takeWhile line).append hu
    have hnot := not_isOneLiner_statement hmem hw (bytes "throw")
    have ht : IsLine (line.takeWhile isIndent ++ unit ++ t) := by
      simp only [IsLine, List.mem_append, not_or]
      exact ⟨⟨(isIndentation_takeWhile _).notMem rfl, hline⟩,
        fun hm => hl ((mem_statements hmem).2.subset hm)⟩
    show lines (splitLine _ _ (_ ++ t)) ++ [] = [_]
    rw [splitLine_of_not_isOneLiner hnot, lines_of_isLine ht, List.append_nil]

/-- Splitting works line by line, although it breaks lines between its two passes. -/
theorem splitConditionals_eq (unit s : Bytes) :
    splitConditionals unit s = onLines (splitConditionals unit) s := by
  rw [splitConditionals, splitBefore, splitBefore, onLines_onLines]
  refine onLines_congr fun l hl => ?_
  rw [splitConditionals, splitBefore, splitBefore,
    onLines_of_isLine (splitLine _ _) (isLine_of_mem_lines hl)]

theorem splitConditionals_of_not_isOneLiner {unit s : Bytes}
    (h : ∀ l ∈ lines s, ¬ IsOneLiner (bytes "return") l ∧ ¬ IsOneLiner (bytes "throw") l) :
    splitConditionals unit s = s := by
  have hr : splitBefore unit (bytes "return") s = s :=
    onLines_eq_self fun l hl => splitLine_of_not_isOneLiner (h l hl).1
  rw [splitConditionals, hr]
  exact onLines_eq_self fun l hl => splitLine_of_not_isOneLiner (h l hl).2

end Rule

end Restyler
