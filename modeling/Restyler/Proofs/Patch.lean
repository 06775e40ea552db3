import Mathlib.Data.List.Basic
import Restyler.Diff.Unified
import Restyler.Proofs.Lines
import Restyler.Proofs.Matching

/-!
# A diff is a patch

The hunks of a diff and the lines between them are laid out on both texts in the same way: each side
is a list of gaps, which both have in common, with the lines of one hunk after each gap but the
last. Hence a hunk shows the lines that its header names, hunks do not overlap, and putting the new
lines of each hunk in the place of its old ones turns the first text into the second.
-/

namespace Restyler

-- --------------------------------------------------------------------
-- Numbers

/-- The number that decimal digits stand for. -/
def number? (s : Bytes) : Option Nat :=
  if s.all Byte.isDigit then some (Nat.ofDigitChars 10 (s.map fun b => Char.ofNat b.toNat) 0)
  else none

/-- A digit is a character of one byte. -/
theorem toNat_of_mem_toDigits {n : Nat} {c : Char} (h : c ∈ Nat.toDigits 10 n) :
    0x30 ≤ c.toNat ∧ c.toNat ≤ 0x39 := by
  have hdigit := Nat.isDigit_of_mem_toDigits (by decide) (by decide) h
  simp only [Char.isDigit, Bool.and_eq_true, decide_eq_true_eq] at hdigit
  exact hdigit

theorem toNat_byte {c : Char} (h : c.toNat ≤ 0x39) : c.toNat.toUInt8.toNat = c.toNat := by
  rw [UInt8.toNat_ofNat']
  omega

theorem isDigit_of_mem_decimal {n : Nat} {b : UInt8} (h : b ∈ decimal n) :
    Byte.isDigit b = true := by
  obtain ⟨c, hc, rfl⟩ := List.mem_map.mp h
  obtain ⟨hlow, hhigh⟩ := toNat_of_mem_toDigits hc
  simp only [Byte.isDigit, Bool.and_eq_true, decide_eq_true_eq, UInt8.le_iff_toNat_le,
    toNat_byte hhigh]
  exact ⟨hlow, hhigh⟩

theorem number?_decimal (n : Nat) : number? (decimal n) = some n := by
  have hchars : (decimal n).map (fun b => Char.ofNat b.toNat) = Nat.toDigits 10 n := by
    rw [decimal, List.map_map, List.map_congr_left (g := id), List.map_id]
    intro c hc
    simp only [Function.comp, toNat_byte (toNat_of_mem_toDigits hc).2, Char.ofNat_toNat, id]
  rw [number?, if_pos (List.all_eq_true.mpr fun b => isDigit_of_mem_decimal), hchars,
    Nat.ofDigitChars_toDigits (by decide) (by decide)]

theorem notMem_decimal {b : UInt8} (hb : Byte.isDigit b = false) (n : Nat) : b ∉ decimal n := by
  intro h
  rw [isDigit_of_mem_decimal h] at hb
  exact absurd hb nofun

namespace Diff

/-- The texts that a diff compares. -/
inductive Side where
  | before
  | after
  deriving DecidableEq

namespace Side

def pick {α : Type} (side : Side) (before after : α) : α :=
  match side with
  | .before => before
  | .after => after

/-- What stands in front of a line that only this side has. -/
def mark (side : Side) : UInt8 := side.pick Byte.minus Byte.plus

end Side

def Op.lines (op : Op) (side : Side) : List Bytes := side.pick op.before op.after

@[simp] theorem Op.lines_keep (ls : List Bytes) (side : Side) : (keep ls).lines side = ls := by
  cases side <;> rfl

-- --------------------------------------------------------------------
-- Ranges

/-- So many lines, after the first `start` lines of a text. -/
structure Range where
  start : Nat
  length : Nat
  deriving DecidableEq

namespace Range

def stop (r : Range) : Nat := r.start + r.length

def holds (r : Range) (i : Nat) : Bool := r.start ≤ i && i < r.stop

def slice (r : Range) (ls : List Bytes) : List Bytes := (ls.drop r.start).take r.length

/-- Reads a printed range. A number alone is a line; otherwise it is the first of the lines, or the
line before the range if that is empty. -/
def read? (s : Bytes) : Option Range :=
  match (splitOn Byte.comma s).map number? with
  | [some (n + 1)] => some ⟨n, 1⟩
  | [some n, some 0] => some ⟨n, 0⟩
  | [some (n + 1), some (length + 1)] => some ⟨n, length + 1⟩
  | _ => none

theorem read?_rangeText (start length : Nat) :
    read? (rangeText start length) = some ⟨start, length⟩ := by
  have hcomma := notMem_decimal (b := Byte.comma) rfl
  have hcut (n : Nat) : splitOn Byte.comma (decimal n ++ bytes "," ++ decimal length) =
      [decimal n, decimal length] := by
    have heq : decimal n ++ bytes "," ++ decimal length =
        decimal n ++ Byte.comma :: decimal length := List.append_assoc _ _ _
    rw [heq, splitOn_append_sep, splitOn_of_notMem (hcomma n), splitOn_of_notMem (hcomma length)]
    rfl
  unfold rangeText read?
  match length with
  | 0 =>
    rw [if_neg (by decide), hcut]
    simp [number?_decimal]
  | 1 =>
    rw [if_pos rfl, splitOn_of_notMem (hcomma _)]
    simp [number?_decimal]
  | length + 2 =>
    rw [if_neg (by omega), hcut]
    simp [number?_decimal]

theorem notMem_rangeText {b : UInt8} (hb : Byte.isDigit b = false) (hc : b ≠ Byte.comma)
    (start length : Nat) : b ∉ rangeText start length := by
  have hcomma : b ∉ bytes "," := fun h => hc (List.mem_singleton.mp h)
  unfold rangeText
  split
  · exact notMem_decimal hb _
  · simp only [List.mem_append, not_or]
    exact ⟨⟨notMem_decimal hb _, hcomma⟩, notMem_decimal hb _⟩

end Range

/-- The lines that are outside all ranges, where `ls` are the lines from the `i`-th on. -/
def outside (i : Nat) (rs : List Range) (ls : List Bytes) : List Bytes :=
  ((ls.zipIdx i).filter fun p => !rs.any (·.holds p.2)).map Prod.fst

section
variable {i : Nat} {r : Range} {rs : List Range} {xs : List Bytes}

theorem outside_append (i : Nat) (rs : List Range) (xs ys : List Bytes) :
    outside i rs (xs ++ ys) = outside i rs xs ++ outside (i + xs.length) rs ys := by
  simp [outside, List.zipIdx_append]

theorem outside_of_free (h : ∀ r ∈ rs, i + xs.length ≤ r.start) : outside i rs xs = xs := by
  have hall : (xs.zipIdx i).filter (fun p => !rs.any (·.holds p.2)) = xs.zipIdx i := by
    refine List.filter_eq_self.mpr fun ⟨l, k⟩ hk => ?_
    have hbound := List.mem_zipIdx hk
    simp only [Bool.not_eq_true', List.any_eq_false, Range.holds, Bool.and_eq_true,
      decide_eq_true_eq]
    intro r hr
    have := h r hr
    omega
  rw [outside, hall, List.zipIdx_map_fst]

theorem outside_of_held (hr : r ∈ rs) (hstart : r.start ≤ i) (hstop : i + xs.length ≤ r.stop) :
    outside i rs xs = [] := by
  have hnone : (xs.zipIdx i).filter (fun p => !rs.any (·.holds p.2)) = [] := by
    refine List.filter_eq_nil_iff.mpr fun ⟨l, k⟩ hk => ?_
    have hbound := List.mem_zipIdx hk
    have hheld : r.holds k = true := by
      simp only [Range.holds, Bool.and_eq_true, decide_eq_true_eq]
      omega
    simpa using ⟨r, hr, hheld⟩
  rw [outside, hnone, List.map_nil]

theorem outside_cons_of_stop_le (h : r.stop ≤ i) : outside i (r :: rs) xs = outside i rs xs := by
  have hsame : ∀ p ∈ xs.zipIdx i,
      (!(r :: rs).any (·.holds p.2)) = !rs.any (·.holds p.2) := by
    intro ⟨l, k⟩ hk
    have hbound := List.mem_zipIdx hk
    have hpast : r.holds k = false := by
      simp only [Range.holds, Bool.and_eq_false_iff, decide_eq_false_iff_not]
      omega
    rw [List.any_cons, hpast, Bool.false_or]
  rw [outside, List.filter_congr hsame, outside]

end

/-- Puts other lines in the place of each range, where `ls` are the lines from the `i`-th on. -/
def replay (i : Nat) : List (Range × List Bytes) → List Bytes → List Bytes
  | [], ls => ls
  | (r, new) :: edits, ls =>
    ls.take (r.start - i) ++ new ++ replay r.stop edits (ls.drop (r.stop - i))

-- --------------------------------------------------------------------
-- Hunks as they are printed

namespace Hunk

/-- Reads the two ranges of a header line. -/
def readHeader? (s : Bytes) : Option (Range × Range) :=
  match splitOn Byte.space s with
  | [opened, m :: before, p :: after, closed] =>
    if opened = bytes "@@" ∧ m = Byte.minus ∧ p = Byte.plus ∧ closed = bytes "@@\n" then
      match Range.read? before, Range.read? after with
      | some r, some r' => some (r, r')
      | _, _ => none
    else none
  | _ => none

def start (h : Hunk) (side : Side) : Nat := side.pick h.before h.after

def lines (h : Hunk) (side : Side) : List Bytes := h.body.flatMap (·.lines side)

def range (h : Hunk) (side : Side) : Range := ⟨h.start side, (h.lines side).length⟩

theorem readHeader?_header (h : Hunk) :
    readHeader? h.header = some (h.range .before, h.range .after) := by
  have hspace := Range.notMem_rangeText (b := Byte.space) rfl (by decide)
  have hcut : splitOn Byte.space h.header =
      [bytes "@@", Byte.minus :: rangeText h.before h.beforeLines.length,
        Byte.plus :: rangeText h.after h.afterLines.length, bytes "@@\n"] := by
    have heq : h.header = bytes "@@" ++ Byte.space ::
        (Byte.minus :: rangeText h.before h.beforeLines.length ++ Byte.space ::
          (Byte.plus :: rangeText h.after h.afterLines.length ++ Byte.space :: bytes "@@\n")) := by
      unfold header
      simp only [List.append_assoc]
      rfl
    rw [heq, splitOn_append_sep, splitOn_append_sep, splitOn_append_sep,
      splitOn_of_notMem (by decide), splitOn_of_notMem (by simp +decide [hspace]),
      splitOn_of_notMem (by simp +decide [hspace]), splitOn_of_notMem (by decide)]
    rfl
  rw [readHeader?, hcut]
  simp only [Range.read?_rangeText]
  rfl

end Hunk

/-- The lines of an operation as they are printed, each with the mark in front of it. -/
def Op.rows : Op → List (UInt8 × Bytes)
  | .keep ls => ls.map fun l => (Byte.space, l)
  | .change removed added =>
    removed.map (fun l => (Byte.minus, l)) ++ added.map fun l => (Byte.plus, l)

theorem Op.text_eq (op : Op) : op.text = op.rows.flatMap fun r => r.1 :: r.2 := by
  cases op <;> simp [Op.text, Op.rows, marked, List.flatMap_map] <;> rfl

namespace Hunk

def rows (h : Hunk) : List (UInt8 × Bytes) := h.body.flatMap Op.rows

/-- The printed lines that belong to a side: context, and those with the side's mark. -/
def side (h : Hunk) (side : Side) : List Bytes :=
  (h.rows.filter fun r => r.1 = Byte.space ∨ r.1 = side.mark).map Prod.snd

theorem text_eq (h : Hunk) : h.text = h.header ++ h.rows.flatMap fun r => r.1 :: r.2 := by
  rw [text, rows, List.flatMap_assoc]
  exact congrArg _ (congrArg (h.body.flatMap ·) (funext Op.text_eq))

theorem side_eq (h : Hunk) (side : Side) : h.side side = h.lines side := by
  rw [Hunk.side, rows, lines, List.filter_flatMap, List.map_flatMap]
  refine congrArg (h.body.flatMap ·) (funext fun op => ?_)
  cases op <;> cases side <;> simp +decide [Op.rows, Op.lines, Op.before, Op.after, Side.mark,
    Side.pick, List.filter_map, Function.comp_def]

end Hunk

-- --------------------------------------------------------------------
-- Layouts

/-- The lines `ls`, which start at place `i` of a side, are gaps with the lines of a hunk after each
of them but the last. If `apart` is set, the first hunk does not follow directly. -/
inductive Laid (side : Side) : Bool → Nat → List Bytes → List (List Bytes) → List Hunk → Prop
  | last (apart : Bool) (i : Nat) (gap : List Bytes) : Laid side apart i gap [gap] []
  | hunk {apart : Bool} {i : Nat} {gap ls : List Bytes} {gaps : List (List Bytes)} {h : Hunk}
      {hs : List Hunk} (hgap : apart = true → gap ≠ []) (hstart : h.start side = i + gap.length)
      (hrest : Laid side true (h.range side).stop ls gaps hs) :
      Laid side apart i (gap ++ (h.lines side ++ ls)) (gap :: gaps) (h :: hs)

namespace Laid

variable {side : Side} {apart : Bool} {i : Nat} {ls : List Bytes} {gaps : List (List Bytes)}
  {hs : List Hunk}

/-- Lines in front of a layout go into its first gap. -/
theorem lead (hlaid : Laid side false i ls ([] :: gaps) hs) (apart : Bool) (j : Nat)
    (gap : List Bytes) (hgap : apart = true → gap ≠ []) (hi : i = j + gap.length) :
    Laid side apart j (gap ++ ls) (gap :: gaps) hs := by
  cases hlaid with
  | last =>
    rw [List.append_nil]
    exact .last apart j gap
  | hunk _ hstart hrest => exact .hunk hgap (hstart.trans hi) hrest

theorem start_le (hlaid : Laid side apart i ls gaps hs) :
    ∀ h ∈ hs, i ≤ h.start side ∧ (apart = true → i < h.start side) := by
  induction hlaid with
  | last => exact nofun
  | @hunk apart i gap ls gaps h hs hgap hstart hrest ih =>
    have hstop : h.start side ≤ (h.range side).stop := Nat.le_add_right _ _
    refine List.forall_mem_cons.mpr ⟨⟨by omega, fun ha => ?_⟩, fun h' hh' => ?_⟩
    · have := List.length_pos_iff.mpr (hgap ha)
      omega
    · have := (ih h' hh').2 rfl
      exact ⟨by omega, fun _ => by omega⟩

theorem pairwise (hlaid : Laid side apart i ls gaps hs) :
    hs.Pairwise fun h h' => (h.range side).stop < (h'.range side).start := by
  induction hlaid with
  | last => exact .nil
  | hunk hgap hstart hrest ih =>
    exact .cons (fun h' hh' => (hrest.start_le h' hh').2 rfl) ih

theorem slice (hlaid : Laid side apart i ls gaps hs) :
    ∀ h ∈ hs, (ls.drop (h.start side - i)).take (h.lines side).length = h.lines side := by
  induction hlaid with
  | last => exact nofun
  | @hunk apart i gap ls gaps h hs hgap hstart hrest ih =>
    refine List.forall_mem_cons.mpr ⟨?_, fun h' hh' => ?_⟩
    · rw [show h.start side - i = gap.length by omega, List.drop_left, List.take_left]
    · have hle := (hrest.start_le h' hh').1
      have hskip : h'.start side - i =
          gap.length + ((h.lines side).length + (h'.start side - (h.range side).stop)) := by
        simp only [Hunk.range, Range.stop] at hle ⊢
        omega
      rw [hskip, ← List.drop_drop, List.drop_left, ← List.drop_drop, List.drop_left]
      exact ih h' hh'

theorem outside_eq (hlaid : Laid side apart i ls gaps hs) :
    outside i (hs.map (·.range side)) ls = gaps.flatten := by
  induction hlaid with
  | last apart i gap =>
    rw [List.map_nil, outside_of_free (by simp), List.flatten_singleton]
  | @hunk apart i gap ls gaps h hs hgap hstart hrest ih =>
    have hlater : ∀ h' ∈ hs, (h.range side).stop ≤ h'.start side :=
      fun h' hh' => (hrest.start_le h' hh').1
    have hstop : (h.range side).stop = i + gap.length + (h.lines side).length := by
      rw [← hstart]
      rfl
    have hfree : ∀ r ∈ (h :: hs).map (·.range side), i + gap.length ≤ r.start := by
      refine List.forall_mem_map.mpr (List.forall_mem_cons.mpr
        ⟨Nat.le_of_eq hstart.symm, fun h' hh' => ?_⟩)
      have := hlater h' hh'
      show _ ≤ h'.start side
      omega
    rw [outside_append, outside_append, outside_of_free hfree, List.map_cons,
      outside_of_held (r := h.range side) List.mem_cons_self (Nat.le_of_eq hstart)
        (Nat.le_of_eq hstop.symm), outside_cons_of_stop_le (Nat.le_of_eq hstop), ← hstop, ih,
      List.nil_append, List.flatten_cons]

/-- The gaps are common to both sides, so the new lines are all that a side lacks. -/
theorem replay_eq {j : Nat} {ms : List Bytes} (hlaid : Laid .before apart i ls gaps hs)
    (hlaid' : Laid .after apart j ms gaps hs) :
    replay i (hs.map fun h => (h.range .before, h.lines .after)) ls = ms := by
  induction hlaid generalizing j ms with
  | last =>
    cases hlaid'
    rfl
  | @hunk apart i gap ls gaps h hs hgap hstart hrest ih =>
    cases hlaid' with
    | hunk _ hstart' hrest' =>
      have hgapLength : (h.range .before).start - i = gap.length := by
        simp only [Hunk.range]
        omega
      have hskip : (h.range .before).stop - i = gap.length + (h.lines .before).length := by
        simp only [Hunk.range, Range.stop]
        omega
      rw [List.map_cons, replay, hgapLength, hskip, List.take_left, ← List.append_assoc gap,
        ← List.length_append, List.drop_left, ih hrest', List.append_assoc]

end Laid

-- --------------------------------------------------------------------
-- Hunks of a script

namespace Hunk

theorem lines_push (h : Hunk) (op : Op) (side : Side) :
    (h.push op).lines side = h.lines side ++ op.lines side := by
  simp [lines, push]

theorem start_push (h : Hunk) (op : Op) (side : Side) : (h.push op).start side = h.start side := by
  cases side <;> rfl

theorem stop_push (h : Hunk) (op : Op) (side : Side) :
    ((h.push op).range side).stop = (h.range side).stop + (op.lines side).length := by
  simp [range, Range.stop, lines_push, start_push, Nat.add_assoc]

/-- The hunk as the first one of a layout, with nothing in front of it. -/
theorem laid (h : Hunk) (side : Side) {ls : List Bytes} {gaps : List (List Bytes)}
    {hs : List Hunk} (hrest : Laid side true (h.range side).stop ls gaps hs) :
    Laid side false (h.start side) (h.lines side ++ ls) ([] :: gaps) (h :: hs) := by
  have hlaid : Laid side false (h.start side) ([] ++ (h.lines side ++ ls)) ([] :: gaps) (h :: hs) :=
    .hunk nofun rfl hrest
  exact hlaid

/-- A hunk that goes on starts where it started. -/
theorem laid_of_push {h : Hunk} {op : Op} {side : Side} {ls : List Bytes}
    {gaps : List (List Bytes)} {hs : List Hunk}
    (hlaid : Laid side false ((h.push op).start side) ((h.push op).lines side ++ ls) gaps hs) :
    Laid side false (h.start side) (h.lines side ++ (op.lines side ++ ls)) gaps hs := by
  rwa [start_push, lines_push, List.append_assoc] at hlaid

end Hunk

/-- A long stretch is cut into the context of one hunk, lines that are left out, and the context of
the next. -/
theorem cut_stretch {ls : List Bytes} (h : 2 * contextLines < ls.length) :
    ∃ gap, gap ≠ [] ∧ ls = ls.take contextLines ++ (gap ++ lastLines contextLines ls) ∧
      contextLines + gap.length = ls.length - contextLines := by
  have hlen : (ls.take contextLines).length = contextLines := by
    rw [List.length_take]
    omega
  refine ⟨(ls.drop contextLines).take (ls.length - 2 * contextLines), ?_, ?_, ?_⟩
  · rw [← List.length_pos_iff, List.length_take, List.length_drop]
    omega
  · have hlast : lastLines contextLines ls =
        (ls.drop contextLines).drop (ls.length - 2 * contextLines) := by
      rw [lastLines, List.drop_drop]
      congr 1
      omega
    rw [hlast, List.take_append_drop, List.take_append_drop]
  · rw [List.length_take, List.length_drop]
    omega

/-- A hunk is continued over the rest of a script; the hunks behind it are apart from it. -/
theorem laid_hunksFrom (h : Hunk) (i j : Nat) (ops : List Op)
    (hat : ∀ side : Side, side.pick i j = (h.range side).stop) :
    ∃ gaps, ∀ side, Laid side false (h.start side) (h.lines side ++ ops.flatMap (·.lines side))
      ([] :: gaps) (hunksFrom h i j ops) := by
  fun_induction hunksFrom h i j ops with
  | case1 h i j => exact ⟨[[]], fun side => Hunk.laid h side (.last true _ [])⟩
  | case2 h i j removed added ops ih =>
    obtain ⟨gaps, hgaps⟩ := ih fun side => by
      rw [Hunk.stop_push, ← hat]
      cases side <;> rfl
    exact ⟨gaps, fun side => Hunk.laid_of_push (hgaps side)⟩
  | case3 h i j ls =>
    refine ⟨[ls.drop contextLines], fun side => ?_⟩
    have hlaid := Hunk.laid (h.push (.keep (ls.take contextLines))) side
      (.last true _ (ls.drop contextLines))
    simpa using Hunk.laid_of_push hlaid
  | case4 h i j ls ops i' j' hne hlong ih =>
    obtain ⟨gap, hgap, hls, hlength⟩ := cut_stretch hlong
    have hlast : (lastLines contextLines ls).length = contextLines := by
      have := congrArg List.length hls
      simp only [List.length_append, List.length_take] at this
      omega
    obtain ⟨gaps, hgaps⟩ := ih fun side => by
      cases side <;>
        simp [Hunk.range, Range.stop, Hunk.start, Hunk.lines, Side.pick, hlast] <;> omega
    refine ⟨gap :: gaps, fun side => ?_⟩
    have hrest := (hgaps side).lead true ((h.push (.keep (ls.take contextLines))).range side).stop
      gap (fun _ => hgap) (by
        rw [Hunk.stop_push, ← hat, Op.lines_keep, List.length_take]
        cases side <;> simp [Hunk.start, Side.pick] <;> omega)
    have hlaid := Hunk.laid_of_push (Hunk.laid _ side hrest)
    simp only [Hunk.lines, List.flatMap_cons, List.flatMap_nil, Op.lines_keep,
      List.append_nil] at hlaid ⊢
    rw [← List.append_assoc gap, ← List.append_assoc (ls.take _), ← hls] at hlaid
    exact hlaid
  | case5 h i j ls ops i' j' hne hshort ih =>
    obtain ⟨gaps, hgaps⟩ := ih fun side => by
      rw [Hunk.stop_push, ← hat, Op.lines_keep]
      cases side <;> rfl
    exact ⟨gaps, fun side => Hunk.laid_of_push (hgaps side)⟩

/-- The hunks of a script are laid out on both of its sides, with the same gaps. -/
theorem laid_hunks (ops : List Op) :
    ∃ gaps, ∀ side, Laid side false 0 (ops.flatMap (·.lines side)) gaps (hunks ops) := by
  fun_cases hunks ops with
  | case1 => exact ⟨[[]], fun side => .last false 0 []⟩
  | case2 ls =>
    refine ⟨[ls], fun side => ?_⟩
    simpa using Laid.last false 0 ls
  | case3 ls ops hne shown start =>
    have hstart : start = ls.length - contextLines := by
      simp only [start, shown, lastLines, List.length_drop]
      omega
    have hls : ls.take start ++ shown = ls := by
      rw [hstart]
      exact List.take_append_drop _ ls
    have hlength : start + shown.length = ls.length := by
      have := congrArg List.length hls
      rw [List.length_append, List.length_take] at this
      omega
    obtain ⟨gaps, hgaps⟩ := laid_hunksFrom ⟨start, start, [.keep shown]⟩ ls.length ls.length ops
      fun side => by
        cases side <;> simp [Hunk.range, Range.stop, Hunk.start, Hunk.lines, Side.pick, hlength]
    refine ⟨ls.take start :: gaps, fun side => ?_⟩
    have hlaid := (hgaps side).lead false 0 (ls.take start) nofun (by
      cases side <;> simp [Hunk.start, Side.pick] <;> omega)
    simp only [Hunk.lines, List.flatMap_cons, List.flatMap_nil, Op.lines_keep,
      List.append_nil] at hlaid ⊢
    rwa [← List.append_assoc, hls] at hlaid
  | case4 ops h₁ h₂ h₃ =>
    obtain ⟨gaps, hgaps⟩ := laid_hunksFrom ⟨0, 0, []⟩ 0 0 ops fun side => by cases side <;> rfl
    refine ⟨[] :: gaps, fun side => ?_⟩
    have hlaid := hgaps side
    cases side <;> exact hlaid

theorem hunksFrom_ne_nil (h : Hunk) (i j : Nat) (ops : List Op) : hunksFrom h i j ops ≠ [] := by
  fun_induction hunksFrom h i j ops with
  | case1 | case3 | case4 => simp
  | case2 h i j removed added ops ih => exact ih
  | case5 h i j ls ops i' j' hne hshort ih => exact ih

/-- Without hunks there is nothing to change. -/
theorem before_eq_after_of_hunks {ops : List Op} (h : hunks ops = []) :
    ops.flatMap Op.before = ops.flatMap Op.after := by
  revert h
  fun_cases hunks ops with
  | case1 | case2 => exact fun _ => rfl
  | case3 | case4 => exact fun h => absurd h (hunksFrom_ne_nil _ _ _ _)

-- --------------------------------------------------------------------
-- Diffs of texts

theorem flatten_terminated (s : Bytes) : (terminated s).flatten = s := by
  induction s with
  | nil => rfl
  | cons b s ih =>
    rw [terminated, List.foldr_cons, ← terminated]
    split
    · rw [List.flatten_cons, ih, List.singleton_append]
    · split
      · next hs =>
        rw [hs] at ih
        rw [← ih]
        rfl
      · next l ls hs =>
        rw [hs, List.flatten_cons] at ih
        rw [List.flatten_cons, List.cons_append, ih]

/-- The hunks that a diff shows. Equal texts have none, whatever lines seed runs in them. -/
def shown (before after : Bytes) : List Hunk :=
  if before = after then [] else hunks (script (terminated before) (terminated after))

theorem laid_shown (before after : Bytes) :
    ∃ gaps, ∀ side : Side,
      Laid side false 0 (terminated (side.pick before after)) gaps (shown before after) := by
  unfold shown
  split
  · next heq =>
    refine ⟨[terminated before], fun side => ?_⟩
    rw [← heq]
    cases side <;> exact .last false 0 _
  · obtain ⟨gaps, hgaps⟩ := laid_hunks (script (terminated before) (terminated after))
    refine ⟨gaps, fun side => ?_⟩
    have hlaid := hgaps side
    cases side with
    | before =>
      have hlines : (script (terminated before) (terminated after)).flatMap (·.lines .before) =
        terminated before := before_script _ _
      rwa [hlines] at hlaid
    | after =>
      have hlines : (script (terminated before) (terminated after)).flatMap (·.lines .after) =
        terminated after := after_script _ _
      rwa [hlines] at hlaid

theorem shown_eq_nil_iff (before after : Bytes) : shown before after = [] ↔ before = after := by
  unfold shown
  split
  · next heq => simp [heq]
  · next hne =>
    refine ⟨fun h => ?_, fun h => absurd h hne⟩
    have hlines := before_eq_after_of_hunks h
    rw [before_script, after_script] at hlines
    rw [← flatten_terminated before, hlines, flatten_terminated]

theorem unified_eq (before after : Bytes) :
    unified before after =
      if shown before after = [] then []
      else fileHeader ++ (shown before after).flatMap fun h =>
        h.header ++ h.rows.flatMap fun r => r.1 :: r.2 := by
  have htext : Hunk.text = fun h => h.header ++ h.rows.flatMap fun r => r.1 :: r.2 :=
    funext Hunk.text_eq
  simp only [shown_eq_nil_iff]
  unfold unified shown
  rw [htext]
  split <;> rfl

theorem unified_eq_nil_iff (before after : Bytes) :
    unified before after = [] ↔ before = after := by
  have hheader : fileHeader ≠ [] := by decide
  unfold unified
  split
  · next heq => simp [heq]
  · next hne => simp [hheader, hne]

/-- A diff is a patch. Its text is that of its hunks, and the header of each names the lines that
the hunk shows of either side. Hunks are in order and apart, what they leave out is the same on both
sides, and replaying them on the first text gives the second. No diff is shown for equal texts
only. -/
theorem unified_isPatch (before after : Bytes) :
    let hs := shown before after
    let text (side : Side) := terminated (side.pick before after)
    unified before after = (if hs = [] then [] else
      fileHeader ++ hs.flatMap fun h => h.header ++ h.rows.flatMap fun r => r.1 :: r.2) ∧
    (∀ h ∈ hs, Hunk.readHeader? h.header = some (h.range .before, h.range .after)) ∧
    (∀ side, ∀ h ∈ hs, h.side side = (h.range side).slice (text side)) ∧
    (∀ side, hs.Pairwise fun h h' => (h.range side).stop < (h'.range side).start) ∧
    outside 0 (hs.map (·.range .before)) (text .before) =
      outside 0 (hs.map (·.range .after)) (text .after) ∧
    (replay 0 (hs.map fun h => (h.range .before, h.side .after)) (text .before)).flatten = after ∧
    (unified before after = [] ↔ before = after) := by
  intro hs text
  obtain ⟨gaps, hgaps⟩ := laid_shown before after
  refine ⟨unified_eq before after, fun h _ => h.readHeader?_header, fun side h hh => ?_,
    fun side => (hgaps side).pairwise, ?_, ?_, unified_eq_nil_iff before after⟩
  · rw [h.side_eq]
    exact ((hgaps side).slice h hh).symm
  · exact (hgaps .before).outside_eq.trans (hgaps .after).outside_eq.symm
  · simp only [Hunk.side_eq]
    have hreplay : replay 0 (hs.map fun h => (h.range .before, h.lines .after)) (text .before) =
        text .after := (hgaps .before).replay_eq (hgaps .after)
    rw [hreplay]
    exact flatten_terminated after

end Diff

end Restyler
