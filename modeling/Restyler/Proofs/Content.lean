import Mathlib.Data.List.Forall2
import Restyler.Proofs.Pipeline

/-!
# What the pipeline keeps

The rules move and add layout, choose between the two quote characters and escape apostrophes. All
else stays, in order: a way of reading bytes that passes over layout and backslashes and does not
tell the quotes apart reads the same before and after. The quotes step escapes at most one
apostrophe of a line, and the other two steps touch nothing but layout.
-/

namespace Restyler

namespace Rule

/-- Spaces, tabs and newlines. -/
def isLayout (b : UInt8) : Bool := isIndent b || b == Byte.newline

variable {β : Type} {f : UInt8 → Option β}

-- --------------------------------------------------------------------
-- Line by line

theorem filterMap_joinWith (f : UInt8 → Option β) {g : Bytes → Bytes} {ls : List Bytes}
    (h : ∀ l ∈ ls, (g l).filterMap f = l.filterMap f) :
    (joinWith [Byte.newline] (ls.map g)).filterMap f =
      (joinWith [Byte.newline] ls).filterMap f := by
  induction ls with
  | nil => rfl
  | cons l ls ih =>
    obtain ⟨hl, hls⟩ := List.forall_mem_cons.mp h
    cases ls with
    | nil => exact hl
    | cons m ms =>
      rw [List.map_cons, joinWith_cons _ _ (by simp), joinWith_cons _ _ (List.cons_ne_nil m ms)]
      simp only [List.filterMap_append, hl, ih hls]

theorem filterMap_onLines {g : Bytes → Bytes} {s : Bytes}
    (h : ∀ l ∈ lines s, (g l).filterMap f = l.filterMap f) :
    (onLines g s).filterMap f = s.filterMap f := by
  rw [onLines, filterMap_joinWith f h]
  exact congrArg _ (joinWith_splitOn _ s)

-- --------------------------------------------------------------------
-- Keywords and conditionals

theorem filterMap_spaceFrom (hspace : f Byte.space = none) (n : Nat) (s : Bytes) :
    (spaceFrom n s).filterMap f = s.filterMap f := by
  fun_induction spaceFrom n s with
  | case1 => rfl
  | case2 b s k hk ih => rw [List.filterMap_cons, ih, List.filterMap_cons]
  | case3 b s hk ih => rw [List.filterMap_cons, ih, List.filterMap_cons]
  | case4 b s ih =>
    rw [List.filterMap_cons_none hspace, List.filterMap_cons, ih, List.filterMap_cons]
  | case5 n b s ih => rw [List.filterMap_cons, ih, List.filterMap_cons]

theorem filterMap_spaceKeywords (hspace : f Byte.space = none) (s : Bytes) :
    (spaceKeywords s).filterMap f = s.filterMap f :=
  filterMap_onLines fun l _ => filterMap_spaceFrom hspace 0 l

theorem filterMap_indentation (hf : ∀ b, isLayout b = true → f b = none) {w : Bytes}
    (hw : IsIndentation w) : w.filterMap f = [] :=
  List.filterMap_eq_nil_iff.mpr fun b hb => hf b (by simp [isLayout, hw b hb])

/-- A newline with indentation takes the place of a space. -/
theorem filterMap_splitLine (hf : ∀ b, isLayout b = true → f b = none) {unit : Bytes}
    (hu : IsIndentation unit) (keyword line : Bytes) :
    (splitLine unit keyword line).filterMap f = line.filterMap f := by
  rw [splitLine_eq]
  cases h : detach? keyword line with
  | none => rfl
  | some p =>
    obtain ⟨stem, statement⟩ := p
    have hline := (detach?_eq_some h).1
    have hindent := filterMap_indentation hf ((isIndentation_takeWhile line).append hu)
    calc (stem ++ Byte.newline :: (line.takeWhile isIndent ++ unit ++ statement)).filterMap f
        = stem.filterMap f ++ statement.filterMap f := by
          rw [List.filterMap_append, List.filterMap_cons_none (hf _ rfl), List.filterMap_append,
            hindent, List.nil_append]
      _ = (stem ++ Byte.space :: statement).filterMap f := by
          rw [List.filterMap_append, List.filterMap_cons_none (hf _ rfl)]
      _ = line.filterMap f := by rw [← hline]

theorem filterMap_splitConditionals (hf : ∀ b, isLayout b = true → f b = none) {unit : Bytes}
    (hu : IsIndentation unit) (s : Bytes) :
    (splitConditionals unit s).filterMap f = s.filterMap f := by
  have hsplit (keyword t : Bytes) : (splitBefore unit keyword t).filterMap f = t.filterMap f :=
    filterMap_onLines fun l _ => filterMap_splitLine hf hu keyword l
  rw [splitConditionals, hsplit, hsplit]

/-- A text without its layout. -/
def solid (s : Bytes) : Bytes := s.filterMap fun b => if isLayout b then none else some b

-- --------------------------------------------------------------------
-- Quotes

theorem Respelled.filterMap_eq {s t : Bytes} (h : Respelled s t)
    (hquote : f Byte.quote = f Byte.apostrophe) (hbackslash : f Byte.backslash = none) :
    t.filterMap f = s.filterMap f := by
  have hmark (q : Mark) : f q.byte = f Byte.apostrophe := by
    cases q with
    | single => rfl
    | double => exact hquote
  induction h with
  | nil => rfl
  | keep b h ih => rw [List.filterMap_cons, ih, List.filterMap_cons]
  | swap q r h ih => rw [List.filterMap_cons, hmark, ih, List.filterMap_cons, hmark]
  | escape h ih =>
    rw [List.filterMap_cons_none hbackslash, List.filterMap_cons, ih, List.filterMap_cons]

theorem filterMap_normalizeQuotes (hquote : f Byte.quote = f Byte.apostrophe)
    (hbackslash : f Byte.backslash = none) (s : Bytes) :
    (normalizeQuotes s).filterMap f = s.filterMap f := by
  rw [normalizeQuotes_eq]
  exact filterMap_onLines fun l _ =>
    (normalizeLine_respelled l).filterMap_eq hquote hbackslash

/-- A text with every quote character written as an apostrophe. -/
def level (s : Bytes) : Bytes := s.map fun b => if b = Byte.quote then Byte.apostrophe else b

/-- The second line is the first one with other quote characters, and with a backslash before one
apostrophe at most. -/
def EscapesOnce (l m : Bytes) : Prop :=
  level m = level l ∨
    ∃ u v, m = u ++ Byte.backslash :: Byte.apostrophe :: v ∧
      level (u ++ Byte.apostrophe :: v) = level l

theorem level_append (s t : Bytes) : level (s ++ t) = level s ++ level t := List.map_append

/-- The levelled text depends on the gaps only. -/
theorem level_spell (m : List (Mark × Gap)) :
    level (spell m) = (m.map Prod.snd).flatMap fun g => Byte.apostrophe :: level g.text := by
  induction m with
  | nil => rfl
  | cons p m ih =>
    obtain ⟨q, g⟩ := p
    have hq : level [q.byte] = [Byte.apostrophe] := by cases q <;> rfl
    rw [spell_cons, ← List.singleton_append, level_append, level_append, hq, ih]
    rfl

theorem level_spell_congr {m n : List (Mark × Gap)} (h : m.map Prod.snd = n.map Prod.snd) :
    level (spell m) = level (spell n) := by
  rw [level_spell, level_spell, h]

theorem gaps_closePair? {m n : List (Mark × Gap)} (h : closePair? m = some n) :
    n.map Prod.snd = m.map Prod.snd := by
  fun_induction closePair? m generalizing n with
  | case1 a m ih =>
    obtain ⟨n, hn, rfl⟩ := Option.map_eq_some_iff.mp h
    simp [ih hn]
  | case2 a b m =>
    rw [← Option.some.inj h]
    rfl
  | case3 => simp at h

/-- One of the forms that are respelled gains a backslash, at the end of the first gap. -/
theorem gaps_settle (m : List (Mark × Gap)) :
    (settle m).map Prod.snd = m.map Prod.snd ∨
      ∃ a b c n, m = (.double, a) :: (.single, b) :: (.double, c) :: n ∧
        settle m = (.single, a.escape) :: (.single, b) :: (.single, c) :: n := by
  fun_cases settle m with
  | case3 a b c n => exact .inr ⟨a, b, c, n, rfl, rfl⟩
  | case5 a b c d m n h => exact .inl (by simp [gaps_closePair? h])
  | _ => exact .inl rfl

theorem escapesOnce_normalizeLine (l : Bytes) : EscapesOnce l (normalizeLine l) := by
  obtain ⟨g, m, rfl⟩ := exists_spell l
  rw [normalizeLine_spell]
  rcases gaps_settle m with hgaps | ⟨a, b, c, n, rfl, hsettle⟩
  · left
    rw [level_append, level_append, level_spell_congr hgaps]
  · right
    refine ⟨g.text ++ Byte.apostrophe :: a.text, b.text ++ spell ((.single, c) :: n), ?_, ?_⟩
    · rw [hsettle]
      simp [spell_cons, Gap.escape, Mark.byte]
    · have hgaps : level (spell ((.single, a) :: (.single, b) :: (.single, c) :: n)) =
          level (spell ((.double, a) :: (.single, b) :: (.double, c) :: n)) :=
        level_spell_congr rfl
      rw [level_append g.text, ← hgaps, ← level_append]
      simp [spell_cons, Mark.byte]

theorem escapesOnce_normalizeQuotes (s : Bytes) :
    List.Forall₂ EscapesOnce (lines s) (lines (normalizeQuotes s)) := by
  rw [normalizeQuotes_eq, lines_onLines_of_isLine fun _ => isLine_normalizeLine,
    List.forall₂_map_right_iff]
  exact List.forall₂_same.mpr fun l _ => escapesOnce_normalizeLine l

end Rule

-- --------------------------------------------------------------------
-- The whole pipeline

namespace Pipeline

open Rule

/-- What the pipeline keeps of a text reads the same before and after. -/
theorem filterMap_apply {β : Type} {f : UInt8 → Option β}
    (hlayout : ∀ b, isLayout b = true → f b = none) (hquote : f Byte.quote = f Byte.apostrophe)
    (hbackslash : f Byte.backslash = none) (width : Int) (s : Bytes) :
    ((ofWidth width).apply s).filterMap f = s.filterMap f := by
  rw [apply_eq, filterMap_splitConditionals hlayout (isIndentation_unit width),
    filterMap_spaceKeywords (hlayout _ rfl), filterMap_normalizeQuotes hquote hbackslash]

/-- A text without layout and backslashes, with one symbol for both quote characters. -/
def content (s : Bytes) : Bytes :=
  level (s.filter fun b => !isLayout b && b != Byte.backslash)

theorem content_eq (s : Bytes) :
    content s = s.filterMap fun b =>
      if isLayout b || b == Byte.backslash then none
      else some (if b = Byte.quote then Byte.apostrophe else b) := by
  rw [content, level, ← List.filterMap_eq_filter, List.map_filterMap]
  refine congrArg (s.filterMap ·) (funext fun b => ?_)
  by_cases hl : isLayout b = true <;> by_cases hb : b = Byte.backslash <;>
    simp [Option.guard, hl, hb]

/-- The pipeline loses, reorders and invents nothing but layout, backslashes and the choice of
quotes. The quotes step adds at most one backslash to a line, before an apostrophe, and takes none
away; the other steps change nothing but layout. -/
theorem apply_keeps_content (width : Int) (s : Bytes) :
    content ((ofWidth width).apply s) = content s ∧
      List.Forall₂ EscapesOnce (lines s) (lines (normalizeQuotes s)) ∧
      solid (spaceKeywords s) = solid s ∧
      solid (splitConditionals (ofWidth width).unit s) = solid s := by
  have hlayout (b : UInt8) (hb : isLayout b = true) :
      (if isLayout b then none else some b) = none := by simp [hb]
  refine ⟨?_, escapesOnce_normalizeQuotes s, filterMap_spaceKeywords rfl s,
    filterMap_splitConditionals hlayout (isIndentation_unit width) s⟩
  rw [content_eq, content_eq, filterMap_apply ?_ rfl rfl]
  intro b hb
  simp [hb]

end Pipeline

end Restyler
