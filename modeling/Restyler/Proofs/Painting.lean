import Restyler.Proofs.Patch

/-!
# Painted lines

A diff is coloured after its text is finished: the text is cut behind each newline, and each of its
lines stays as it is or is put between the two sequences of one style, the newline outside. A painted
line is a line again, so the coloured text has the lines of the plain one. The sequences can be
taken off wherever a plain line does not begin like a sequence itself.
-/

namespace Restyler

instance (s : Bytes) : Decidable (IsLine s) := inferInstanceAs (Decidable (Byte.newline ∉ s))

/-- The first newline of a text decides where its first line ends. -/
theorem line_append_inj {u v x y : Bytes} (hu : IsLine u) (hv : IsLine v) :
    u ++ Byte.newline :: x = v ++ Byte.newline :: y ↔ u = v ∧ x = y := by
  induction u generalizing v with
  | nil =>
    cases v with
    | nil => simp
    | cons b v => simp [(isLine_cons.mp hv).1]
  | cons b u ih =>
    obtain ⟨hb, hu⟩ := isLine_cons.mp hu
    cases v with
    | nil => simp [Ne.symm hb]
    | cons c v => simp [ih hu (isLine_cons.mp hv).2, and_assoc]

namespace Diff

open Ansi (Style)

-- --------------------------------------------------------------------
-- Lines with their newlines

/-- A text that is cut behind each newline. Only the last line may lack one. -/
inductive IsCut : List Bytes → Prop
  | nil : IsCut []
  | last {l : Bytes} (hl : IsLine l) (hne : l ≠ []) : IsCut [l]
  | line {l : Bytes} {ps : List Bytes} (hl : IsLine l) (hps : IsCut ps) :
      IsCut ((l ++ [Byte.newline]) :: ps)

theorem terminated_cons (b : UInt8) (s : Bytes) :
    terminated (b :: s) =
      if b = Byte.newline then [b] :: terminated s
      else match terminated s with
        | [] => [[b]]
        | l :: ls => (b :: l) :: ls := rfl

theorem terminated_append {l s q : Bytes} {qs : List Bytes} (hl : IsLine l)
    (hs : terminated s = q :: qs) : terminated (l ++ s) = (l ++ q) :: qs := by
  induction l with
  | nil => exact hs
  | cons b l ih =>
    obtain ⟨hb, hl⟩ := isLine_cons.mp hl
    simp [terminated_cons, ih hl, Ne.symm hb]

theorem terminated_line {l : Bytes} (hl : IsLine l) (s : Bytes) :
    terminated (l ++ Byte.newline :: s) = (l ++ [Byte.newline]) :: terminated s :=
  terminated_append hl rfl

theorem terminated_last {l : Bytes} (hl : IsLine l) (hne : l ≠ []) : terminated l = [l] := by
  induction l with
  | nil => exact absurd rfl hne
  | cons b l ih =>
    obtain ⟨hb, hl⟩ := isLine_cons.mp hl
    cases l with
    | nil => simp [terminated, Ne.symm hb]
    | cons c l => simp [terminated_cons b, ih hl (List.cons_ne_nil c l), Ne.symm hb]

theorem isCut_terminated (s : Bytes) : IsCut (terminated s) := by
  induction s with
  | nil => exact .nil
  | cons b s ih =>
    rw [terminated_cons]
    generalize terminated s = ps at ih
    split
    · next hb => exact hb ▸ .line (l := []) nofun ih
    · next hb =>
      cases ih with
      | nil => exact .last (by simp [IsLine, Ne.symm hb]) (by simp)
      | last hl hne => exact .last (isLine_cons.mpr ⟨Ne.symm hb, hl⟩) (by simp)
      | line hl hps => exact .line (isLine_cons.mpr ⟨Ne.symm hb, hl⟩) hps

namespace IsCut

variable {ps : List Bytes}

theorem terminated_flatten (h : IsCut ps) : terminated ps.flatten = ps := by
  induction h with
  | nil => rfl
  | last hl hne => simpa using terminated_last hl hne
  | line hl hps ih => simp [terminated_line hl, ih]

theorem of_mem (h : IsCut ps) {p : Bytes} (hp : p ∈ ps) : IsCut [p] := by
  induction h with
  | nil => exact absurd hp nofun
  | last hl hne => exact List.mem_singleton.mp hp ▸ .last hl hne
  | line hl hps ih =>
    rcases List.mem_cons.mp hp with rfl | hp
    · exact .line hl .nil
    · exact ih hp

theorem cons {p : Bytes} (h : IsCut [p]) {b : UInt8} (hb : b ≠ Byte.newline) : IsCut [b :: p] := by
  cases h with
  | last hl hne => exact .last (isLine_cons.mpr ⟨Ne.symm hb, hl⟩) (by simp)
  | line hl _ => exact .line (isLine_cons.mpr ⟨Ne.symm hb, hl⟩) .nil

end IsCut

-- --------------------------------------------------------------------
-- A line and its newline

/-- What is before the newline of a line. -/
def content (p : Bytes) : Bytes := if p.getLast? = some Byte.newline then p.dropLast else p

def ending (p : Bytes) : Bytes := if p.getLast? = some Byte.newline then [Byte.newline] else []

theorem content_append_ending (p : Bytes) : content p ++ ending p = p := by
  unfold content ending
  split
  · next h => exact List.dropLast_append_getLast? _ h
  · simp

@[simp] theorem content_line (l : Bytes) : content (l ++ [Byte.newline]) = l := by simp [content]

@[simp] theorem ending_line (l : Bytes) : ending (l ++ [Byte.newline]) = [Byte.newline] := by
  simp [ending]

section
variable {l : Bytes} (hl : IsLine l)
include hl

theorem getLast?_of_isLine : l.getLast? ≠ some Byte.newline :=
  fun h => hl (List.mem_of_getLast? h)

theorem content_of_isLine : content l = l := by simp [content, getLast?_of_isLine hl]

theorem ending_of_isLine : ending l = [] := by simp [ending, getLast?_of_isLine hl]

end

theorem content_cons {b : UInt8} (hb : b ≠ Byte.newline) (p : Bytes) :
    content (b :: p) = b :: content p := by
  cases p with
  | nil => simp [content, hb]
  | cons c p =>
    simp only [content, List.getLast?_cons_cons]
    split <;> simp

/-- A pattern without newline is found before the newline of a line or nowhere. -/
theorem prefix_content_iff {k p : Bytes} (hk : IsLine k) : k <+: content p ↔ k <+: p := by
  have happend := content_append_ending p
  refine ⟨fun h => h.trans ⟨ending p, happend⟩, fun h => ?_⟩
  rw [← happend] at h
  unfold ending at h
  split at h
  · exact prefix_of_prefix_append_sep hk h
  · simpa using h

-- --------------------------------------------------------------------
-- Styles

def styles : List Style := [Ansi.bold, Ansi.cyan, Ansi.red, Ansi.green]

theorem styleOf?_mem {l : Bytes} {c : Style} (h : styleOf? l = some c) : c ∈ styles := by
  unfold styleOf? at h
  repeat' split at h
  all_goals simp_all [styles]

/-- The byte that begins every sequence. -/
def escape : UInt8 := 0x1B

theorem isLine_sequences : ∀ c ∈ styles, IsLine c.opening ∧ IsLine c.closing := by decide

theorem opening_head? : ∀ c ∈ styles, c.opening.head? = some escape := by decide

theorem closing_head? : ∀ c ∈ styles, c.closing.head? = some escape := by decide

theorem opening_isPrefix : ∀ c ∈ styles, ∀ c' ∈ styles, c.opening <+: c'.opening → c = c' := by
  decide

/-- The sequence in front of a text shows the style. -/
theorem opening_inj {c c' : Style} (hc : c ∈ styles) (hc' : c' ∈ styles) {u v : Bytes}
    (h : c.opening ++ u = c'.opening ++ v) : c = c' := by
  rcases List.prefix_or_prefix_of_prefix (List.prefix_append c.opening u)
    (h ▸ List.prefix_append c'.opening v) with hp | hp
  · exact opening_isPrefix c hc c' hc' hp
  · exact (opening_isPrefix c' hc' c hc hp).symm

theorem head?_paint {c : Style} (hc : c ∈ styles) (l : Bytes) :
    (c.paint l).head? = some escape := by
  simp [Style.paint, List.head?_append, opening_head? c hc]

/-- A line between the sequences of a style, if there is one. -/
def enclose (c? : Option Style) (l : Bytes) : Bytes :=
  match c? with
  | none => l
  | some c => c.paint l

theorem isLine_enclose {c? : Option Style} {l : Bytes} (hc : ∀ c ∈ c?, c ∈ styles)
    (hl : IsLine l) : IsLine (enclose c? l) := by
  cases c? with
  | none => exact hl
  | some c =>
    obtain ⟨hopening, hclosing⟩ := isLine_sequences c (hc c rfl)
    simp_all [enclose, Style.paint, IsLine]

theorem enclose_inj {a? b? : Option Style} (ha : ∀ c ∈ a?, c ∈ styles) (hb : ∀ c ∈ b?, c ∈ styles)
    {l : Bytes} (hl : l.head? ≠ some escape) : enclose a? l = enclose b? l ↔ a? = b? := by
  refine ⟨fun h => ?_, fun h => h ▸ rfl⟩
  cases a? with
  | none =>
    cases b? with
    | none => rfl
    | some b => exact absurd (congrArg List.head? h ▸ head?_paint (hb b rfl) l) hl
  | some a =>
    cases b? with
    | none => exact absurd (congrArg List.head? h ▸ head?_paint (ha a rfl) l) hl
    | some b =>
      simp only [enclose, Style.paint, List.append_assoc] at h
      exact congrArg some (opening_inj (ha a rfl) (hb b rfl) h)

-- --------------------------------------------------------------------
-- Painting

theorem paintLine_eq (p : Bytes) :
    paintLine p = enclose (styleOf? (content p)) (content p) ++ ending p := by
  change (match styleOf? (content p) with
    | none => p
    | some c => c.paint (content p) ++ ending p) = _
  cases styleOf? (content p) with
  | none => exact (content_append_ending p).symm
  | some c => rfl

theorem paintLine_line (l : Bytes) :
    paintLine (l ++ [Byte.newline]) = enclose (styleOf? l) l ++ [Byte.newline] := by
  simp [paintLine_eq]

theorem paintLine_of_isLine {l : Bytes} (hl : IsLine l) :
    paintLine l = enclose (styleOf? l) l := by
  simp [paintLine_eq, content_of_isLine hl, ending_of_isLine hl]

theorem isLine_painted {l : Bytes} (hl : IsLine l) : IsLine (enclose (styleOf? l) l) :=
  isLine_enclose (fun _ => styleOf?_mem) hl

theorem IsCut.map_paintLine {ps : List Bytes} (h : IsCut ps) : IsCut (ps.map paintLine) := by
  induction h with
  | nil => exact .nil
  | @last l hl hne =>
    have hpainted : enclose (styleOf? l) l ≠ [] := by
      cases styleOf? l with
      | none => exact hne
      | some c => simp [enclose, Style.paint, hne]
    simpa [paintLine_of_isLine hl] using IsCut.last (isLine_painted hl) hpainted
  | @line l ps hl hps ih => simpa [paintLine_line] using IsCut.line (isLine_painted hl) ih

theorem terminated_coloured (before after : Bytes) :
    terminated (coloured before after) = (terminated (unified before after)).map paintLine := by
  rw [coloured, List.flatMap_def]
  exact (isCut_terminated _).map_paintLine.terminated_flatten

/-- The line `q` is the line `p`, or has what is before the newline of `p` between the two sequences
of a style. -/
inductive Wraps : Bytes → Bytes → Prop
  | bare (p : Bytes) : Wraps p p
  | styled {c : Style} (hc : c ∈ styles) {l eol : Bytes} (hl : IsLine l)
      (heol : eol = [] ∨ eol = [Byte.newline]) :
      Wraps (l ++ eol) (c.opening ++ l ++ c.closing ++ eol)

theorem wraps_painted {l eol : Bytes} (hl : IsLine l) (heol : eol = [] ∨ eol = [Byte.newline]) :
    Wraps (l ++ eol) (enclose (styleOf? l) l ++ eol) := by
  cases hc : styleOf? l with
  | none => exact .bare _
  | some c => exact .styled (styleOf?_mem hc) hl heol

theorem IsCut.wraps {ps : List Bytes} (h : IsCut ps) :
    List.Forall₂ Wraps ps (ps.map paintLine) := by
  induction h with
  | nil => exact .nil
  | last hl hne =>
    refine .cons ?_ .nil
    simpa [paintLine_of_isLine hl] using wraps_painted hl (.inl rfl)
  | line hl hps ih =>
    refine .cons ?_ ih
    simpa [paintLine_line] using wraps_painted hl (.inr rfl)

-- --------------------------------------------------------------------
-- Taking the sequences off

/-- The text between the sequences of a style. -/
def strip? (l : Bytes) (c : Style) : Option Bytes :=
  (c.opening.isPrefixOf? l).bind c.closing.isSuffixOf?

def unwrapLine (p : Bytes) : Bytes :=
  (styles.findSome? (strip? (content p))).getD (content p) ++ ending p

/-- A coloured text without the sequences around its lines. -/
def unwrapped (s : Bytes) : Bytes := (terminated s).flatMap unwrapLine

theorem strip?_eq_some {l m : Bytes} {c : Style} : strip? l c = some m ↔ c.paint m = l := by
  simp only [strip?, Option.bind_eq_some_iff, List.isPrefixOf?_eq_some_iff_append_eq,
    List.isSuffixOf?_eq_some_iff_append_eq, Style.paint, List.append_assoc]
  constructor
  · rintro ⟨_, rfl, rfl⟩
    rfl
  · rintro rfl
    exact ⟨_, rfl, rfl⟩

theorem findSome?_strip?_paint {c : Style} (hc : c ∈ styles) (l : Bytes) :
    styles.findSome? (strip? (c.paint l)) = some l := by
  cases hm : styles.findSome? (strip? (c.paint l)) with
  | none =>
    have hnone := List.findSome?_eq_none_iff.mp hm c hc
    rw [strip?_eq_some.mpr rfl] at hnone
    exact nomatch hnone
  | some m =>
    obtain ⟨c', hc', hm⟩ := List.exists_of_findSome?_eq_some hm
    have hpaint := strip?_eq_some.mp hm
    simp only [Style.paint, List.append_assoc] at hpaint
    obtain rfl := opening_inj hc' hc hpaint
    simpa using hpaint

theorem unwrapLine_of_head? {p : Bytes} (hp : p.head? ≠ some escape) : unwrapLine p = p := by
  have hcontent : (content p).head? ≠ some escape := by
    intro h
    have happend := congrArg List.head? (content_append_ending p)
    rw [List.head?_append, h] at happend
    exact hp happend.symm
  have hnone : styles.findSome? (strip? (content p)) = none := by
    rw [List.findSome?_eq_none_iff]
    intro c hc
    cases hm : strip? (content p) c with
    | none => rfl
    | some m => exact absurd (strip?_eq_some.mp hm ▸ head?_paint hc m) hcontent
  rw [unwrapLine, hnone, Option.getD_none, content_append_ending]

theorem Wraps.unwrapLine_eq {p q : Bytes} (h : Wraps p q) (hp : p.head? ≠ some escape) :
    unwrapLine q = p := by
  cases h with
  | bare => exact unwrapLine_of_head? hp
  | @styled c hc l eol hl heol =>
    have hpaint : IsLine (enclose (some c) l) := isLine_enclose (by simpa using hc) hl
    have hstrip : styles.findSome? (strip? (enclose (some c) l)) = some l :=
      findSome?_strip?_paint hc l
    change unwrapLine (enclose (some c) l ++ eol) = l ++ eol
    rcases heol with rfl | rfl
    · rw [List.append_nil, List.append_nil, unwrapLine, content_of_isLine hpaint,
        ending_of_isLine hpaint, hstrip, Option.getD_some, List.append_nil]
    · simp [unwrapLine, hstrip]

theorem flatMap_unwrapLine {ps qs : List Bytes} (h : List.Forall₂ Wraps ps qs)
    (hps : ∀ p ∈ ps, p.head? ≠ some escape) : qs.flatMap unwrapLine = ps.flatten := by
  induction h with
  | nil => rfl
  | cons hwraps _ ih =>
    obtain ⟨hp, hps⟩ := List.forall_mem_cons.mp hps
    simp [hwraps.unwrapLine_eq hp, ih hps]

end Diff

end Restyler
