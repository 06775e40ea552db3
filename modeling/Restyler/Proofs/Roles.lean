import Restyler.Proofs.Painting

/-!
# Colours and roles

Each line that a diff prints has a role: a header of the diff, the range of a hunk, a line that is
removed or added, or context. The role decides the colour that the line is meant to have. Painting
does not know roles and goes by the first bytes of the lines of the finished text. The outcome is
the same unless a removed or added line begins like a header of the diff, or a removed line lacks
its newline and runs into the line printed after it.
-/

namespace Restyler.Diff

open Ansi (Style)

-- --------------------------------------------------------------------
-- Printed lines and their roles

inductive Role where
  | header
  | range
  | removed
  | added
  | context
  deriving DecidableEq

namespace Role

/-- The role of a line behind the mark that its operation puts there. -/
def ofMark (mark : UInt8) : Role :=
  if mark = Byte.minus then removed else if mark = Byte.plus then added else context

def style? : Role → Option Style
  | header => some Ansi.bold
  | range => some Ansi.cyan
  | removed => some Ansi.red
  | added => some Ansi.green
  | context => none

theorem style?_mem (role : Role) : ∀ c ∈ role.style?, c ∈ styles := by
  cases role <;> decide

theorem exists_style? {role : Role} (h : role ≠ context) : ∃ c ∈ styles, role.style? = some c := by
  cases role
  case context => exact absurd rfl h
  all_goals exact ⟨_, by decide, rfl⟩

end Role

/-- A printed line with its role. -/
structure Row where
  role : Role
  text : Bytes
  deriving DecidableEq

/-- The row in the colour of its role, the newline outside. -/
def Row.painted (r : Row) : Bytes := enclose r.role.style? (content r.text) ++ ending r.text

def Hunk.printed (h : Hunk) : List Row :=
  ⟨.range, h.header⟩ :: h.rows.map fun r => ⟨.ofMark r.1, r.1 :: r.2⟩

/-- The lines that a diff prints. -/
def printed (before after : Bytes) : List Row :=
  if before = after then []
  else
    ⟨.header, bytes "--- before\n"⟩ :: ⟨.header, bytes "+++ after\n"⟩ ::
      (shown before after).flatMap Hunk.printed

theorem Hunk.flatMap_printed (h : Hunk) : h.printed.flatMap Row.text = h.text := by
  rw [h.text_eq, printed, List.flatMap_cons, List.flatMap_map]

theorem unified_eq_printed (before after : Bytes) :
    unified before after = (printed before after).flatMap Row.text := by
  unfold unified printed
  split
  · rfl
  · next hne =>
    have htexts : ((shown before after).flatMap Hunk.printed).flatMap Row.text =
        (shown before after).flatMap Hunk.text := by
      rw [List.flatMap_assoc]
      exact congrArg (List.flatMap · _) (funext Hunk.flatMap_printed)
    rw [List.flatMap_cons, List.flatMap_cons, htexts, shown, if_neg hne]
    rfl

/-- A mark belongs to both sides or to one. -/
theorem mem_marks {h : Hunk} {r : UInt8 × Bytes} (hr : r ∈ h.rows) :
    r.1 = Byte.space ∨ ∃ side : Side, r.1 = side.mark := by
  obtain ⟨op, -, hr⟩ := List.mem_flatMap.mp hr
  cases op with
  | keep ls =>
    obtain ⟨l, -, rfl⟩ := List.mem_map.mp hr
    exact .inl rfl
  | change removed added =>
    rcases List.mem_append.mp hr with hr | hr
    · obtain ⟨l, -, rfl⟩ := List.mem_map.mp hr
      exact .inr ⟨.before, rfl⟩
    · obtain ⟨l, -, rfl⟩ := List.mem_map.mp hr
      exact .inr ⟨.after, rfl⟩

theorem mem_lines_of_mem_rows {h : Hunk} {r : UInt8 × Bytes} (hr : r ∈ h.rows) :
    ∃ side, (r.1 = Byte.space ∨ r.1 = side.mark) ∧ r.2 ∈ h.lines side := by
  have hmem {side : Side} (hside : r.1 = Byte.space ∨ r.1 = side.mark) : r.2 ∈ h.lines side := by
    rw [← h.side_eq side]
    exact List.mem_map_of_mem (List.mem_filter.mpr ⟨hr, by simpa using hside⟩)
  rcases mem_marks hr with hspace | ⟨side, hside⟩
  · exact ⟨.before, .inl hspace, hmem (.inl hspace)⟩
  · exact ⟨side, .inr hside, hmem (.inr hside)⟩

theorem mark_eq_space {h : Hunk} {r : UInt8 × Bytes} (hr : r ∈ h.rows)
    (hrole : Role.ofMark r.1 = .context) : r.1 = Byte.space := by
  rcases mem_marks hr with hspace | ⟨side, hside⟩
  · exact hspace
  · rw [hside] at hrole
    cases side <;> exact absurd hrole (by decide)

-- --------------------------------------------------------------------
-- Where newlines are missing

/-- The line has its newline. -/
def Ended (p : Bytes) : Prop := [Byte.newline] <:+ p

theorem ended_line (l : Bytes) : Ended (l ++ [Byte.newline]) := List.suffix_append l _

theorem not_ended_of_isLine {l : Bytes} (hl : IsLine l) : ¬ Ended l :=
  fun h => hl (h.subset (List.mem_singleton_self _))

theorem Ended.cons {p : Bytes} (h : Ended p) (b : UInt8) : Ended (b :: p) :=
  h.trans (List.suffix_cons b p)

theorem IsCut.pairwise {ps : List Bytes} (h : IsCut ps) : ps.Pairwise fun p _ => Ended p := by
  induction h with
  | nil => exact .nil
  | last => exact List.pairwise_singleton _ _
  | line hl hps ih => exact .cons (fun _ _ => ended_line _) ih

namespace Laid

variable {side : Side} {apart : Bool} {i : Nat} {ls : List Bytes} {gaps : List (List Bytes)}
  {hs : List Hunk}

theorem mem_lines (hlaid : Laid side apart i ls gaps hs) :
    ∀ h ∈ hs, ∀ l ∈ h.lines side, l ∈ ls := by
  induction hlaid with
  | last => exact nofun
  | hunk _ _ _ ih =>
    refine List.forall_mem_cons.mpr ⟨fun l hl => ?_, fun h' hh' l hl => ?_⟩
    · simp [hl]
    · simp [ih h' hh' l hl]

/-- Between two hunks there are lines, so the lines of the first one are not the last. -/
theorem pairwise_ended (hlaid : Laid side apart i ls gaps hs)
    (hls : ls.Pairwise fun p _ => Ended p) :
    (∀ h ∈ hs, (h.lines side).Pairwise fun p _ => Ended p) ∧
      hs.Pairwise fun h _ => ∀ p ∈ h.lines side, Ended p := by
  induction hlaid with
  | last => exact ⟨nofun, .nil⟩
  | @hunk apart i gap ls gaps h hs hgap hstart hrest ih =>
    rw [List.pairwise_append, List.pairwise_append] at hls
    obtain ⟨-, ⟨hhunk, hls, hfollowed⟩, -⟩ := hls
    obtain ⟨heach, hlater⟩ := ih hls
    refine ⟨List.forall_mem_cons.mpr ⟨hhunk, heach⟩, .cons (fun h' hh' p hp => ?_) hlater⟩
    cases hrest with
    | last => exact absurd hh' nofun
    | hunk hgap' =>
      obtain ⟨q, hq⟩ := List.exists_mem_of_ne_nil _ (hgap' rfl)
      exact hfollowed p hp q (by simp [hq])

end Laid

/-- Context is on both sides, so what is printed after a context line is behind it on some side. -/
theorem Hunk.pairwise_rows {h : Hunk}
    (hlines : ∀ side, (h.lines side).Pairwise fun p _ => Ended p) :
    h.rows.Pairwise fun r _ => r.1 = Byte.space → Ended r.2 := by
  have hside (side : Side) : h.rows.Pairwise fun r r' => r.1 = Byte.space →
      r'.1 = Byte.space ∨ r'.1 = side.mark → Ended r.2 := by
    have hpairwise := hlines side
    rw [← h.side_eq side, Hunk.side, List.pairwise_map, List.pairwise_filter] at hpairwise
    exact hpairwise.imp fun hended hspace hmark => hended (by simp [hspace]) (by simpa using hmark)
  refine ((hside .before).and (hside .after)).imp_of_mem fun {r r'} _ hr' hended hspace => ?_
  rcases mem_marks hr' with hmark | ⟨side, hmark⟩
  · exact hended.1 hspace (.inl hmark)
  · cases side with
    | before => exact hended.1 hspace (.inr hmark)
    | after => exact hended.2 hspace (.inr hmark)

/-- A context line that lacks its newline is the last one that is printed. -/
theorem pairwise_printed (before after : Bytes) :
    (printed before after).Pairwise fun r _ => r.role = .context → Ended r.text := by
  unfold printed
  split
  · exact .nil
  · obtain ⟨gaps, hgaps⟩ := laid_shown before after
    have hended (side : Side) :=
      (hgaps side).pairwise_ended (isCut_terminated (side.pick before after)).pairwise
    refine .cons (fun _ _ h => nomatch h) (.cons (fun _ _ h => nomatch h) ?_)
    rw [List.pairwise_flatMap]
    constructor
    · intro h hh
      refine .cons (fun _ _ h => nomatch h) ?_
      rw [List.pairwise_map]
      refine (Hunk.pairwise_rows fun side => (hended side).1 h hh).imp_of_mem ?_
      intro r r' hr _ hspace hrole
      exact (hspace (mark_eq_space hr hrole)).cons _
    · refine ((hended .before).2.and (hended .after).2).imp ?_
      rintro h h' ⟨hbefore, hafter⟩ row hrow _ _ hrole
      rcases List.mem_cons.mp hrow with rfl | hrow
      · exact nomatch hrole
      · obtain ⟨r, hr, rfl⟩ := List.mem_map.mp hrow
        obtain ⟨side, -, hmem⟩ := mem_lines_of_mem_rows hr
        cases side with
        | before => exact (hbefore _ hmem).cons _
        | after => exact (hafter _ hmem).cons _

-- --------------------------------------------------------------------
-- How rows begin

/-- The first bytes of rows. -/
def leads : List UInt8 := [Byte.minus, Byte.plus, Byte.space, 0x40]

def IsLed (p : Bytes) : Prop := ∃ b ∈ leads, p.head? = some b

namespace IsLed

variable {p : Bytes}

theorem head?_ne (h : IsLed p) : p.head? ≠ some escape := by
  have hescape : escape ∉ leads := by decide
  obtain ⟨b, hb, hp⟩ := h
  intro h
  obtain rfl : b = escape := Option.some.inj (hp.symm.trans h)
  exact hescape hb

theorem append (h : IsLed p) (s : Bytes) : IsLed (p ++ s) := by
  obtain ⟨b, hb, hp⟩ := h
  exact ⟨b, hb, by simp [List.head?_append, hp]⟩

theorem of_line {l : Bytes} (h : IsLed (l ++ [Byte.newline])) : IsLed l := by
  cases l with
  | nil => exact absurd h (by unfold IsLed; decide)
  | cons b l => exact h

end IsLed

/-- A row begins with a mark or an at sign, and has no newline but at its end. -/
structure Row.Lawful (r : Row) : Prop where
  led : IsLed r.text
  cut : IsCut [r.text]

theorem Hunk.lawful_range (h : Hunk) : Row.Lawful ⟨.range, h.header⟩ := by
  have hrange (start length : Nat) : IsLine (rangeText start length) :=
    Range.notMem_rangeText rfl (by decide) start length
  have hopen : IsLine (bytes "@@ -") := by decide
  have hmiddle : IsLine (bytes " +") := by decide
  have hclose : IsLine (bytes " @@") := by decide
  have hline : IsLine (bytes "@@ -" ++ rangeText h.before h.beforeLines.length ++
      bytes " +" ++ rangeText h.after h.afterLines.length ++ bytes " @@") := by
    simp_all [IsLine]
  have hheader : h.header = bytes "@@ -" ++ rangeText h.before h.beforeLines.length ++
      bytes " +" ++ rangeText h.after h.afterLines.length ++ bytes " @@" ++ [Byte.newline] := by
    rw [List.append_assoc]
    rfl
  exact ⟨⟨0x40, by decide, rfl⟩, hheader ▸ .line hline .nil⟩

theorem Hunk.lawful_printed {h : Hunk} (hlines : ∀ side, ∀ l ∈ h.lines side, IsCut [l]) :
    ∀ r ∈ h.printed, r.Lawful := by
  refine List.forall_mem_cons.mpr ⟨h.lawful_range, List.forall_mem_map.mpr fun r hr => ?_⟩
  obtain ⟨side, hmark, hmem⟩ := mem_lines_of_mem_rows hr
  have hlead : r.1 ∈ leads ∧ r.1 ≠ Byte.newline := by
    rcases hmark with hmark | hmark
    · rw [hmark]
      decide
    · rw [hmark]
      cases side <;> decide
  exact ⟨⟨r.1, hlead.1, rfl⟩, (hlines side r.2 hmem).cons hlead.2⟩

theorem lawful_printed (before after : Bytes) : ∀ r ∈ printed before after, r.Lawful := by
  unfold printed
  split
  · exact nofun
  · obtain ⟨gaps, hgaps⟩ := laid_shown before after
    have hlines : ∀ h ∈ shown before after, ∀ side, ∀ l ∈ h.lines side, IsCut [l] :=
      fun h hh side l hl => (isCut_terminated _).of_mem ((hgaps side).mem_lines h hh l hl)
    refine List.forall_mem_cons.mpr ⟨⟨⟨Byte.minus, by decide, rfl⟩, ?_⟩,
      List.forall_mem_cons.mpr ⟨⟨⟨Byte.plus, by decide, rfl⟩, ?_⟩, fun r hr => ?_⟩⟩
    · exact .line (l := bytes "--- before") (by decide) .nil
    · exact .line (l := bytes "+++ after") (by decide) .nil
    · obtain ⟨h, hh, hr⟩ := List.mem_flatMap.mp hr
      exact Hunk.lawful_printed (hlines h hh) r hr

/-- Every line of the text begins as some row does, also one that several rows share. -/
theorem isLed_of_mem_terminated {rows : List Row} (hrows : ∀ r ∈ rows, r.Lawful) :
    ∀ p ∈ terminated (rows.flatMap Row.text), IsLed p := by
  induction rows with
  | nil => exact nofun
  | cons r rows ih =>
    obtain ⟨role, p⟩ := r
    obtain ⟨⟨hled, hcut⟩, hrows⟩ := List.forall_mem_cons.mp hrows
    have hrest := ih hrows
    simp only [List.flatMap_cons] at hled hcut ⊢
    cases hcut with
    | line hl _ =>
      rw [List.append_assoc, List.singleton_append, terminated_line hl]
      exact List.forall_mem_cons.mpr ⟨hled, hrest⟩
    | last hl hne =>
      cases hs : terminated (rows.flatMap Row.text) with
      | nil =>
        have hnil := flatten_terminated (rows.flatMap Row.text)
        rw [hs, List.flatten_nil] at hnil
        rw [← hnil, List.append_nil, terminated_last hl hne]
        exact List.forall_mem_cons.mpr ⟨hled, nofun⟩
      | cons q qs =>
        rw [terminated_append hl hs]
        rw [hs] at hrest
        exact List.forall_mem_cons.mpr ⟨hled.append q, (List.forall_mem_cons.mp hrest).2⟩

-- --------------------------------------------------------------------
-- Rows that share a line

/-- A row in colour is closed before the next row begins, a painted line that both share behind
it. -/
theorem paintLine_shared_ne {c : Style} (hc : c ∈ styles) {l q : Bytes} (hl : IsLine l)
    (hled : IsLed l) (hq : IsCut [q]) (hqled : IsLed q) (x y : Bytes) :
    paintLine (l ++ q) ++ x ≠ c.paint l ++ y := by
  obtain ⟨u, eol, hu, heq⟩ : ∃ u eol, IsLed u ∧
      paintLine (l ++ q) = enclose (styleOf? (l ++ u)) (l ++ u) ++ eol := by
    cases hq with
    | last hlast hne =>
      refine ⟨q, [], hqled, ?_⟩
      rw [List.append_nil]
      exact paintLine_of_isLine (by simp_all [IsLine])
    | @line u _ hu _ =>
      refine ⟨u, [Byte.newline], hqled.of_line, ?_⟩
      rw [← List.append_assoc]
      exact paintLine_line _
  rw [heq]
  intro h
  cases hstyle : styleOf? (l ++ u) with
  | none =>
    have hhead := congrArg List.head? h
    rw [hstyle, List.head?_append (l := c.paint l), head?_paint hc l] at hhead
    exact (((hled.append u).append eol).append x).head?_ne hhead
  | some c' =>
    rw [hstyle] at h
    simp only [enclose, Style.paint, List.append_assoc] at h
    obtain rfl := opening_inj (styleOf?_mem hstyle) hc h
    have hhead := congrArg List.head? (List.append_cancel_left (List.append_cancel_left h))
    rw [List.head?_append (l := c'.closing), closing_head? c' hc] at hhead
    exact (hu.append _).head?_ne hhead

theorem painted_iff {l : Bytes} (hl : IsLed l) (role : Role) :
    enclose (styleOf? l) l = enclose role.style? l ↔ styleOf? l = role.style? :=
  enclose_inj (fun _ => styleOf?_mem) role.style?_mem hl.head?_ne

/-- Lines are coloured by their roles exactly if their first bytes show the roles and no two rows
share a line. -/
theorem flatMap_paintLine_eq_iff {rows : List Row} (hrows : ∀ r ∈ rows, r.Lawful)
    (hcontext : rows.Pairwise fun r _ => r.role = .context → Ended r.text) :
    (terminated (rows.flatMap Row.text)).flatMap paintLine = rows.flatMap Row.painted ↔
      (∀ r ∈ rows, styleOf? (content r.text) = r.role.style?) ∧
        rows.Pairwise fun r _ => Ended r.text := by
  induction rows with
  | nil => simp [terminated]
  | cons r rows ih =>
    obtain ⟨role, p⟩ := r
    obtain ⟨⟨hled, hcut⟩, hrows⟩ := List.forall_mem_cons.mp hrows
    obtain ⟨hfirst, hcontext⟩ := List.pairwise_cons.mp hcontext
    replace ih := ih hrows hcontext
    have hrest := isLed_of_mem_terminated hrows
    simp only [List.flatMap_cons, List.forall_mem_cons, List.pairwise_cons, Row.painted]
      at hled hcut hfirst ⊢
    cases hcut with
    | @line l _ hl _ =>
      rw [List.append_assoc, List.singleton_append, terminated_line hl]
      simp only [List.flatMap_cons, paintLine_line, content_line, ending_line, List.append_assoc,
        List.singleton_append]
      rw [line_append_inj (isLine_painted hl) (isLine_enclose role.style?_mem hl),
        painted_iff hled.of_line role, ih]
      simp [ended_line, and_assoc]
    | last hl hne =>
      cases rows with
      | nil =>
        simp [terminated_last hl hne, paintLine_of_isLine hl, content_of_isLine hl,
          ending_of_isLine hl, painted_iff hled role]
      | cons r' rows =>
        have hshared : ¬ Ended p := not_ended_of_isLine hl
        have hrole : role ≠ .context := fun h => hshared (hfirst r' List.mem_cons_self h)
        obtain ⟨c, hc, hstyle⟩ := Role.exists_style? hrole
        refine iff_of_false ?_ fun h => hshared (h.2.1 r' List.mem_cons_self)
        cases hs : terminated ((r' :: rows).flatMap Row.text) with
        | nil =>
          have hnil := flatten_terminated ((r' :: rows).flatMap Row.text)
          obtain ⟨b, -, hb⟩ := (List.forall_mem_cons.mp hrows).1.led
          cases ht : r'.text <;> simp_all
        | cons q qs =>
          have hq : IsCut [q] := (isCut_terminated _).of_mem (hs ▸ List.mem_cons_self)
          have hqled := hrest q (hs ▸ List.mem_cons_self)
          rw [terminated_append hl hs, List.flatMap_cons, hstyle, content_of_isLine hl,
            List.append_assoc]
          exact paintLine_shared_ne hc hl hled hq hqled _ _

-- --------------------------------------------------------------------
-- What first bytes show

/-- A removed or an added line that begins like a header of the whole diff. -/
def Row.Misleads (r : Row) : Prop :=
  (r.role = .removed ∧ bytes "--- " <+: r.text) ∨ (r.role = .added ∧ bytes "+++ " <+: r.text)

theorem styleOf?_side (side : Side) (p : Bytes) :
    styleOf? (content (side.mark :: p)) = (Role.ofMark side.mark).style? ↔
      ¬ Row.Misleads ⟨.ofMark side.mark, side.mark :: p⟩ := by
  have hdashes : bytes "--- " = Byte.minus :: bytes "-- " := by decide
  have hpluses : bytes "+++ " = Byte.plus :: bytes "++ " := by decide
  have hrange : bytes "@@" = 0x40 :: bytes "@" := by decide
  have hminus : bytes "-" = [Byte.minus] := by decide
  have hplus : bytes "+" = [Byte.plus] := by decide
  cases side with
  | before =>
    have hiff : bytes "-- " <+: content p ↔ bytes "-- " <+: p := prefix_content_iff (by decide)
    by_cases h : bytes "-- " <+: p <;>
      simp +decide [Side.mark, Side.pick, Role.ofMark, Row.Misleads, content_cons, styleOf?,
        hdashes, hpluses, hrange, hminus, hiff, h, Role.style?]
  | after =>
    have hiff : bytes "++ " <+: content p ↔ bytes "++ " <+: p := prefix_content_iff (by decide)
    by_cases h : bytes "++ " <+: p <;>
      simp +decide [Side.mark, Side.pick, Role.ofMark, Row.Misleads, content_cons, styleOf?,
        hdashes, hpluses, hrange, hminus, hplus, hiff, h, Role.style?]

theorem styleOf?_context (p : Bytes) :
    styleOf? (content (Byte.space :: p)) = Role.context.style? := by
  rw [content_cons (by decide)]
  rfl

theorem styleOf?_range (h : Hunk) : styleOf? (content h.header) = Role.range.style? := by
  have hheader : h.header = 0x40 :: 0x40 :: h.header.drop 2 := rfl
  rw [hheader, content_cons (by decide), content_cons (by decide)]
  rfl

theorem styleOf?_row {h : Hunk} {m : UInt8} {p : Bytes} (hr : (m, p) ∈ h.rows) :
    styleOf? (content (m :: p)) = (Role.ofMark m).style? ↔
      ¬ Row.Misleads ⟨.ofMark m, m :: p⟩ := by
  rcases (mem_marks hr : m = _ ∨ ∃ side : Side, m = _) with rfl | ⟨side, rfl⟩
  · have hrole : Role.ofMark Byte.space = .context := by decide
    simp [styleOf?_context, Row.Misleads, hrole]
  · exact styleOf?_side side p

theorem styleOf?_printed (before after : Bytes) :
    ∀ r ∈ printed before after, styleOf? (content r.text) = r.role.style? ↔ ¬ r.Misleads := by
  unfold printed
  split
  · exact nofun
  · have hheader : ∀ p ∈ [bytes "--- before\n", bytes "+++ after\n"],
        styleOf? (content p) = Role.header.style? := by decide
    refine List.forall_mem_cons.mpr ⟨?_, List.forall_mem_cons.mpr ⟨?_, fun r hr => ?_⟩⟩
    · simp [hheader, Row.Misleads]
    · simp [hheader, Row.Misleads]
    · obtain ⟨h, -, hr⟩ := List.mem_flatMap.mp hr
      rcases List.mem_cons.mp hr with rfl | hr
      · simp [styleOf?_range, Row.Misleads]
      · obtain ⟨⟨m, p⟩, hrow, rfl⟩ := List.mem_map.mp hr
        exact styleOf?_row hrow

-- --------------------------------------------------------------------
-- Coloured diffs

theorem isLed_unified (before after : Bytes) :
    ∀ p ∈ terminated (unified before after), IsLed p := by
  rw [unified_eq_printed]
  exact isLed_of_mem_terminated (lawful_printed before after)

/-- Colour only encloses lines. Line by line, a coloured diff is the plain one, with what is before
a newline left alone or between the two sequences of a style, and without these sequences it is the
plain diff again. -/
theorem rendered_wraps (before after : Bytes) :
    List.Forall₂ Wraps (terminated (unified before after))
        (terminated (rendered true before after)) ∧
      unwrapped (rendered true before after) = rendered false before after := by
  have hlines : terminated (rendered true before after) =
      (terminated (unified before after)).map paintLine := terminated_coloured before after
  have hwraps := (isCut_terminated (unified before after)).wraps
  rw [unwrapped, hlines]
  refine ⟨hwraps, ?_⟩
  rw [flatMap_unwrapLine hwraps fun p hp => (isLed_unified before after p hp).head?_ne,
    flatten_terminated]
  rfl

/-- Each printed line has the colour of its role exactly if no removed or added line begins like a
header of the diff and every printed line but the last has its newline. -/
theorem rendered_byRole_iff (before after : Bytes) :
    unified before after = (printed before after).flatMap Row.text ∧
      (rendered true before after = (printed before after).flatMap Row.painted ↔
        (∀ r ∈ printed before after, ¬ r.Misleads) ∧
          (printed before after).Pairwise fun r _ => Ended r.text) := by
  refine ⟨unified_eq_printed before after, ?_⟩
  have hiff := flatMap_paintLine_eq_iff (lawful_printed before after) (pairwise_printed before after)
  rw [← unified_eq_printed] at hiff
  change (terminated (unified before after)).flatMap paintLine = _ ↔ _
  rw [hiff]
  exact and_congr_left fun _ => forall₂_congr (styleOf?_printed before after)

/-- A removed line that begins with two dashes and a space is shown in bold. -/
theorem removed_shown_bold :
    ¬ ∀ before after : Bytes, before ≠ after →
      rendered true before after = (printed before after).flatMap Row.painted := by
  intro h
  have hcase := h (bytes "-- x\n") (bytes "y\n") (by decide)
  revert hcase
  decide +kernel

end Restyler.Diff
