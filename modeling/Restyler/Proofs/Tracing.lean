import Restyler.Proofs.Nesting
import Restyler.Proofs.Notes

/-!
# The trace of a run

What a watch records follows from the notes that it takes, so the order of the notes is the order of
the trace: the events of a file stand between the start and the end of its span, and all of them
between the start and the end of the span of the run. A span that the level leaves out has no number
of its own, and what is inside it belongs to no span.
-/

namespace Restyler

namespace Trace

-- --------------------------------------------------------------------
-- Levels

/-- A level treats both ends of a span alike. -/
theorem Level.emits_finish (l : Level) (scope : Scope) :
    l.emits .finish scope = l.emits .start scope := by
  unfold emits
  split <;> rfl

theorem Level.emits_error (l : Level) (scope : Scope) :
    l.emits .error scope = true ↔ l ∈ named ∧ error.rank ≤ l.rank := by
  obtain ⟨rank⟩ := l
  unfold emits
  match rank with
  | 0 | 1 | 2 | 3 | 4 => simp [named, off, error, phase, detail, debug]
  | n + 5 => simp [named, off, error, phase, detail, debug]

theorem Tracer.emits_eq (t : Tracer) (kind : Kind) (scope : Scope) :
    t.emits kind scope = t.level.emits kind scope := by
  cases t with
  | nop => rfl
  | stream l f => rfl

theorem Tracer.enabled_of_emits {t : Tracer} {kind : Kind} {scope : Scope}
    (h : t.emits kind scope = true) : t.enabled = true := by
  rw [emits_eq] at h
  unfold Level.emits at h
  split at h
  · next hrank => simp [enabled, hrank]
  · next hrank => simp [enabled, hrank]
  · next hrank => simp [enabled, hrank]
  · next hrank => simp [enabled, hrank]
  · exact absurd h nofun

-- --------------------------------------------------------------------
-- Sessions

namespace Session

/-- The event that is recorded next. -/
def next (t : Session) (kind : Kind) (scope : Scope) (span parent : Nat) (name detail : Bytes)
    (extra : List (Bytes × Bytes)) : Event :=
  ⟨t.now, t.seq + 1, kind, scope, span, parent, name, detail, extra⟩

theorem record_eq (t : Session) (kind : Kind) (scope : Scope) (span parent : Nat)
    (name detail : Bytes) (extra : List (Bytes × Bytes)) :
    t.record kind scope span parent name detail extra =
      { t with
        seq := t.seq + 1
        events := t.events ++ if t.tracer.emits kind scope then
          [t.next kind scope span parent name detail extra] else [] } := by
  unfold record emit next nextSeq
  split <;> simp_all

theorem startSpan_of_emits {t : Session} {scope : Scope} (h : t.tracer.emits .start scope = true)
    (name : Bytes) (parent : Nat) :
    t.startSpan scope name parent =
      (t.nextSpan.record .start scope (t.spans + 1) parent name [] [],
        ⟨false, t.spans + 1, parent, scope, name, []⟩) := by
  rw [startSpan, if_pos (by simp [h, Tracer.enabled_of_emits h])]
  rfl

theorem startSpan_of_not_emits {t : Session} {scope : Scope}
    (h : t.tracer.emits .start scope = false) (name : Bytes) (parent : Nat) :
    t.startSpan scope name parent = (t, .none) := by
  rw [startSpan, if_neg (by simp [h])]

theorem startSpan_tracer (t : Session) (scope : Scope) (name : Bytes) (parent : Nat) :
    (t.startSpan scope name parent).1.tracer = t.tracer := by
  cases hemits : t.tracer.emits .start scope with
  | true =>
    rw [startSpan_of_emits hemits, record_eq]
    rfl
  | false => rw [startSpan_of_not_emits hemits]

/-- From one session to another some events are recorded, which leave no span open. -/
structure Through (around : List Nat) (t t' : Session) (es : List Event) : Prop where
  tracer : t'.tracer = t.tracer
  events : t'.events = t.events ++ es
  part : Part around t.seq t.spans es t'.seq t'.spans

namespace Through

variable {around : List Nat} {t t' t'' : Session} {es es' : List Event}

theorem refl (t : Session) : Through around t t [] := ⟨rfl, by simp, .nil (Nat.le_refl _)⟩

theorem trans (h : Through around t t' es) (h' : Through around t' t'' es') :
    Through around t t'' (es ++ es') where
  tracer := h'.tracer.trans h.tracer
  events := by rw [h'.events, h.events, List.append_assoc]
  part := h.part.append h'.part

theorem mono {wider : List Nat} (h : Through around t t' es)
    (hsub : ∀ id ∈ around, id ∈ 0 :: wider) : Through wider t t' es :=
  ⟨h.tracer, h.events, h.part.mono hsub⟩

theorem record {kind : Kind} (hstart : kind ≠ .start) (hfinish : kind ≠ .finish) (scope : Scope)
    {parent : Nat} (hparent : parent ∈ 0 :: around) (name detail : Bytes) :
    Through around t (t.record kind scope 0 parent name detail [])
      (if t.tracer.emits kind scope then [t.next kind scope 0 parent name detail []] else []) := by
  rw [record_eq]
  refine ⟨rfl, rfl, ?_⟩
  split
  · exact .mark hstart hfinish hparent (Nat.lt_succ_self _) (Nat.le_refl _)
  · exact .nil (Nat.le_succ _)

end Through

theorem point_through {around : List Nat} (t : Session) (scope : Scope) (name detail : Bytes)
    {parent : Nat} (hparent : parent ∈ 0 :: around) :
    ∃ es, Through around t (t.point scope name detail parent) es ∧ ∀ e ∈ es, e.kind = .point := by
  unfold point
  split
  · refine ⟨_, .record (by decide) (by decide) scope hparent name detail, ?_⟩
    split <;> simp [next]
  · exact ⟨[], .refl t, nofun⟩

theorem error_through {around : List Nat} (t : Session) (scope : Scope) (name message : Bytes)
    {parent : Nat} (hparent : parent ∈ 0 :: around) :
    ∃ e? : Option Event, Through around t (t.error scope name message parent) e?.toList ∧
      (∀ e ∈ e?, e.kind = .error) ∧ e?.isSome = t.tracer.emits .error scope := by
  unfold error
  split
  · have hrecord := Through.record (t := t) (by decide : Kind.error ≠ .start) (by decide) scope
      hparent name message
    cases hemits : t.tracer.emits .error scope with
    | true =>
      rw [if_pos hemits] at hrecord
      exact ⟨some _, hrecord, by simp [next], rfl⟩
    | false =>
      rw [if_neg (by simp [hemits])] at hrecord
      exact ⟨none, hrecord, nofun, rfl⟩
  · next hoff =>
    refine ⟨none, .refl t, nofun, (Bool.eq_false_iff.mpr fun hemits => ?_).symm⟩
    exact hoff (Tracer.enabled_of_emits hemits)

end Session

/-- The same span, perhaps with other attributes. -/
structure Span.Matches (a b : Span) : Prop where
  inert : a.inert = b.inert
  id : a.id = b.id
  parent : a.parent = b.parent
  scope : a.scope = b.scope
  name : a.name = b.name

theorem Span.Matches.refl (s : Span) : s.Matches s := ⟨rfl, rfl, rfl, rfl, rfl⟩

theorem Span.matches_withExtra (s : Span) (key value : Bytes) :
    (s.withExtra key value).Matches s := by
  unfold withExtra
  split
  · exact .refl s
  · exact ⟨rfl, rfl, rfl, rfl, rfl⟩

/-- A span shows by the events that start and finish it, or not at all. -/
inductive Bounds (shown : Bool) (scope : Scope) : List Event → List Event → Prop
  | shown {s f : Event} (hshown : shown = true) (hs : s.kind = .start) (hscope : s.scope = scope)
      (hf : f.Finishes s) : Bounds shown scope [s] [f]
  | hidden (hshown : shown = false) : Bounds shown scope [] []

def Quiet (es : List Event) : Prop := ∀ e ∈ es, e.kind ≠ .error

theorem Quiet.append {es es' : List Event} (h : Quiet es) (h' : Quiet es') : Quiet (es ++ es') :=
  List.forall_mem_append.mpr ⟨h, h'⟩

theorem Bounds.quiet {shown : Bool} {scope : Scope} {opening closing : List Event}
    (h : Bounds shown scope opening closing) : Quiet opening ∧ Quiet closing := by
  cases h with
  | shown hshown hs hscope hf =>
    have hstart : Kind.start ≠ .error := by decide
    have hfinish : Kind.finish ≠ .error := by decide
    exact ⟨by simp [Quiet, hs, hstart], by simp [Quiet, hf.1, hfinish]⟩
  | hidden => exact ⟨nofun, nofun⟩

/-- After an error comes nothing but the end of the span around the trace. -/
def ErrorsLast (shown : Bool) (scope : Scope) (es : List Event) : Prop :=
  ∀ before e after, es = before ++ e :: after → e.kind = .error →
    ∃ opening inner, before = opening ++ inner ∧ Bounds shown scope opening after

section
variable {shown : Bool} {scope : Scope} {opening inner closing : List Event} {e? : Option Event}
  (hbounds : Bounds shown scope opening closing) (hinner : Quiet inner)
include hbounds hinner

theorem Bounds.errorsLast :
    ErrorsLast shown scope (opening ++ (inner ++ e?.toList) ++ closing) := by
  intro before e after hall he
  rcases mem_split hall with ⟨more, hopen, rfl⟩ | ⟨more, hclosing, -⟩
  · rcases mem_split hopen with ⟨more', hopening, -⟩ | ⟨more', hinside, rfl⟩
    · exact absurd he (hbounds.quiet.1 e (by simp [hopening]))
    rcases mem_split hinside with ⟨more'', hquiet, -⟩ | ⟨more'', herror, rfl⟩
    · exact absurd he (hinner e (by simp [hquiet]))
    cases e? with
    | none => simp at herror
    | some e' =>
      obtain ⟨rfl, -, rfl⟩ := eq_of_singleton herror
      exact ⟨opening, inner, by simp, by simpa using hbounds⟩
  · exact absurd he (hbounds.quiet.2 e (by simp [hclosing]))

theorem Bounds.exists_error (he : ∀ e ∈ e?, e.kind = .error) :
    (∃ e ∈ opening ++ (inner ++ e?.toList) ++ closing, e.kind = .error) ↔ e?.isSome = true := by
  obtain ⟨hopening, hclosing⟩ := hbounds.quiet
  constructor
  · rintro ⟨e, hmem, hkind⟩
    simp only [List.mem_append, Option.mem_toList] at hmem
    rcases hmem with (hmem | hmem | hmem) | hmem
    · exact absurd hkind (hopening e hmem)
    · exact absurd hkind (hinner e hmem)
    · simp [Option.mem_def.mp hmem]
    · exact absurd hkind (hclosing e hmem)
  · intro hsome
    obtain ⟨e, rfl⟩ := Option.isSome_iff_exists.mp hsome
    exact ⟨e, by simp, he e rfl⟩

end

/-- What is recorded from the start of a span to its end. -/
theorem Session.finishSpan_through {around : List Nat} {t t' : Session} {scope : Scope}
    {name : Bytes} {parent : Nat} {es : List Event} {span : Span} (hparent : parent ∈ 0 :: around)
    (hspan : span.Matches (t.startSpan scope name parent).2)
    (hinner : Through (span.id :: around) (t.startSpan scope name parent).1 t' es)
    (detail : Bytes) :
    ∃ opening closing, Bounds (t.tracer.emits .start scope) scope opening closing ∧
      Through around t (t'.finishSpan span detail) (opening ++ es ++ closing) := by
  cases hemits : t.tracer.emits .start scope with
  | false =>
    rw [startSpan_of_not_emits hemits] at hspan hinner
    have hinert : span.inert = true := hspan.inert
    have hid : span.id = 0 := hspan.id
    -- The span has no number, so what is recorded inside it has no parent.
    refine ⟨[], [], .hidden rfl, ?_⟩
    rw [finishSpan, if_pos (by simp [hinert]), List.nil_append, List.append_nil]
    refine hinner.mono (List.forall_mem_cons.mpr ⟨by simp [hid], fun id hmem => ?_⟩)
    exact List.mem_cons_of_mem 0 hmem
  | true =>
    rw [startSpan_of_emits hemits] at hspan hinner
    obtain ⟨hinert, hid, hup, hscope, hname⟩ := hspan
    obtain ⟨htracer, hevents, hpart⟩ := hinner
    rw [record_eq] at htracer hevents hpart
    have hnext : t.nextSpan.tracer.emits .start scope = true := hemits
    simp only [hnext, if_true] at hevents
    replace htracer : t'.tracer = t.tracer := htracer
    have hfinish : t'.tracer.emits .finish scope = true := by
      rw [htracer, Tracer.emits_eq, Level.emits_finish, ← Tracer.emits_eq, hemits]
    have hon : t'.tracer.enabled = true := Tracer.enabled_of_emits hfinish
    have hends : (t'.next .finish scope span.id span.parent span.name detail span.extra).Finishes
        (t.nextSpan.next .start scope (t.spans + 1) parent name [] []) :=
      ⟨rfl, hid, hup, rfl, hname⟩
    refine ⟨_, _, .shown rfl rfl rfl hends, ?_⟩
    rw [finishSpan, if_neg (by simp [hinert, hon]), record_eq, hscope, if_pos hfinish]
    refine ⟨htracer, ?_, ?_⟩
    · simp only [hevents]
      simp [nextSpan]
    · refine .span rfl rfl hparent (Nat.lt_succ_self _) (Nat.le_refl _) ?_ hends
        (Nat.lt_succ_self _) (Nat.le_refl _)
      rwa [hid] at hpart

end Trace

-- --------------------------------------------------------------------
-- Watches

namespace Watch

open Trace

def withSink (w : Watch) (sink : Sink) : Watch := { w with sink }

theorem take_withSink (w : Watch) (sink : Sink) (n : Note) :
    (w.withSink sink).take n = (w.take n).withSink sink := by
  cases n <;> rfl

/-- What a watch has become follows from the notes, its sink apart. -/
theorem eq_of_told {start w : World Watch} {ns : List Note} (h : Told Watch.observer start ns w) :
    ∃ sink, w.watch = (ns.foldl take start.watch).withSink sink := by
  induction h with
  | refl => exact ⟨start.watch.sink, rfl⟩
  | @note ns w h n ih =>
    obtain ⟨sink, ih⟩ := ih
    have hnote : (Watch.observer n w).watch =
        (w.watch.take n).withSink (Watch.observer n w).watch.sink := rfl
    rw [ih, take_withSink] at hnote
    exact ⟨_, by rw [hnote, List.foldl_append]; rfl⟩
  | disk h d ih => exact ih

theorem take_inner {n : Note} (hn : n.isInner = true) (u : Watch) :
    ∃ es, Session.Through [u.file.id] u.session (u.take n).session es ∧ Quiet es ∧
      (u.take n).file = u.file ∧ (u.take n).run = u.run := by
  cases n with
  | phaseStarted | phaseFinished => exact ⟨[], .refl _, nofun, rfl, rfl⟩
  | stepChanged step =>
    have hparent : u.file.id ∈ 0 :: [u.file.id] := by simp
    obtain ⟨es, hthrough, hes⟩ :=
      u.session.point_through .step step.name (bytes "changed") hparent
    refine ⟨es, hthrough, fun e he => ?_, rfl, rfl⟩
    rw [hes e he]
    decide
  | runStarted | fileStarted | loadFailed | writeFailed | fileFinished | runFailed | runFinished =>
    exact absurd hn nofun

/-- What is told of a file after it was started is recorded inside its span, and finishes it. -/
theorem foldl_take_rest {ns : List Note} (h : Note.Rest ns) (u : Watch) :
    ∃ t es span detail, Session.Through [u.file.id] u.session t es ∧ Quiet es ∧
      span.Matches u.file ∧ (ns.foldl take u).session = t.finishSpan span detail ∧
      (ns.foldl take u).run = u.run := by
  induction h generalizing u with
  | @last n hn =>
    cases n with
    | loadFailed | writeFailed =>
      exact ⟨u.session, [], u.file, _, .refl _, nofun, .refl _, rfl, rfl⟩
    | fileFinished status =>
      exact ⟨u.session, [], _, _, .refl _, nofun, u.file.matches_withExtra _ _, rfl, rfl⟩
    | runStarted | fileStarted | phaseStarted | phaseFinished | stepChanged | runFailed
    | runFinished => exact absurd hn nofun
  | @cons n ns hn hns ih =>
    obtain ⟨es, hthrough, hes, hfile, hrun⟩ := take_inner hn u
    obtain ⟨t, es', span, detail, hthrough', hes', hspan, hsession, hrun'⟩ := ih (u.take n)
    rw [hfile] at hthrough' hspan
    exact ⟨t, es ++ es', span, detail, hthrough.trans hthrough', hes.append hes', hspan, hsession,
      hrun'.trans hrun⟩

theorem foldl_take_file {ns : List Note} (h : Note.OfFile ns) (u : Watch) :
    ∃ es, Session.Through [u.run.id] u.session (ns.foldl take u).session es ∧ Quiet es ∧
      (ns.foldl take u).run = u.run := by
  obtain ⟨path, hrest⟩ := h
  obtain ⟨t, es, span, detail, hthrough, hes, hspan, hsession, hrun⟩ :=
    foldl_take_rest hrest (u.take (.fileStarted path))
  rw [← hspan.id] at hthrough
  have hparent : u.run.id ∈ 0 :: [u.run.id] := by simp
  obtain ⟨opening, closing, hbounds, hfile⟩ :=
    Session.finishSpan_through hparent hspan (hthrough.mono (by simp)) detail
  refine ⟨_, hsession ▸ hfile, ?_, hrun⟩
  exact (hbounds.quiet.1.append hes).append hbounds.quiet.2

theorem foldl_take_files {files : List (List Note)} (hfiles : ∀ ns ∈ files, Note.OfFile ns)
    (u : Watch) :
    ∃ es, Session.Through [u.run.id] u.session (files.flatten.foldl take u).session es ∧
      Quiet es ∧ (files.flatten.foldl take u).run = u.run := by
  induction files generalizing u with
  | nil => exact ⟨[], .refl _, nofun, rfl⟩
  | cons ns files ih =>
    obtain ⟨hns, hfiles⟩ := List.forall_mem_cons.mp hfiles
    obtain ⟨es, hthrough, hes, hrun⟩ := foldl_take_file hns u
    obtain ⟨es', hthrough', hes', hrun'⟩ := ih hfiles (ns.foldl take u)
    rw [hrun] at hthrough' hrun'
    rw [List.flatten_cons, List.foldl_append]
    exact ⟨es ++ es', hthrough.trans hthrough', hes.append hes', hrun'⟩

/-- The last note of a run is recorded as an error if the run has failed, and ends its span. -/
theorem take_last {σ : Type} {r : Run σ} {last : Note} (h : last.EndsRun r) (u : Watch) :
    ∃ t span detail, ∃ e? : Option Event,
      Session.Through [u.run.id] u.session t e?.toList ∧ (∀ e ∈ e?, e.kind = .error) ∧
      (e?.isSome = true ↔ u.session.tracer.emits .error .file = true ∧
        r.failure.isSome = true ∧ ¬ r.FoundNone) ∧
      span.Matches u.run ∧ (u.take last).session = t.finishSpan span detail := by
  have hspan (files : Nat) := u.run.matches_withExtra (bytes "files") (decimal files)
  cases h with
  | finished files hfailure =>
    refine ⟨u.session, _, _, none, .refl _, nofun, ?_, hspan files, rfl⟩
    rcases hfailure with hnone | hfound
    · simp [hnone]
    · simp [hfound]
  | @failed f path files hfailure hfound =>
    have hparent : u.run.id ∈ 0 :: [u.run.id] := by simp
    obtain ⟨e?, hthrough, he, hsome⟩ := u.session.error_through .file path f.message hparent
    exact ⟨_, _, _, e?, hthrough, he, by simp [hsome, hfailure, hfound], hspan files, rfl⟩

theorem foldl_take_run {files : List (List Note)} (hfiles : ∀ ns ∈ files, Note.OfFile ns)
    {σ : Type} {r : Run σ} {last : Note} (hlast : last.EndsRun r) (u : Watch) :
    ∃ opening inner closing, ∃ e? : Option Event,
      Session.Through [u.outer] u.session
        ((.runStarted :: files.flatten ++ [last]).foldl take u).session
        (opening ++ (inner ++ e?.toList) ++ closing) ∧
      Bounds (u.session.tracer.emits .start .run) .run opening closing ∧ Quiet inner ∧
      (∀ e ∈ e?, e.kind = .error) ∧
      (e?.isSome = true ↔ u.session.tracer.emits .error .file = true ∧
        r.failure.isSome = true ∧ ¬ r.FoundNone) := by
  obtain ⟨inner, hthrough, hinner, hrun⟩ := foldl_take_files hfiles (u.take .runStarted)
  obtain ⟨t, span, detail, e?, hthrough', he, hsome, hspan, hsession⟩ :=
    take_last hlast (files.flatten.foldl take (u.take .runStarted))
  rw [hrun] at hthrough' hspan
  rw [← hspan.id] at hthrough hthrough'
  have hparent : u.outer ∈ 0 :: [u.outer] := by simp
  obtain ⟨opening, closing, hbounds, hwhole⟩ := Session.finishSpan_through hparent hspan
    ((hthrough.trans hthrough').mono (by simp)) detail
  refine ⟨opening, inner, closing, e?, ?_, hbounds, hinner, he, ?_⟩
  · rw [List.cons_append, List.foldl_cons, List.foldl_append]
    exact hsession ▸ hwhole
  · have htracer : (u.take .runStarted).session.tracer = u.session.tracer :=
      u.session.startSpan_tracer .run (bytes "restyle") u.outer
    rw [hsome, hthrough.tracer, htracer]

/-- Every trace of a run is well formed, whatever the level, and however the run ends. There is an
error in it exactly if errors are let through and the run fails after it has started, and not for
want of files; only the end of the span of the run comes after it. A failure that says that there
are no files and has results before it is the reporter's own, and recorded as any other. -/
theorem run_trace_wellFormed (options : Options) (reporter : Option (Nat → Outcome → Reply))
    (interrupted : Nat → Bool) (w : World Watch) (paths : List Bytes) (canceled : Bool) :
    let job : Job Watch := ⟨Watch.observer, options, reporter, interrupted⟩
    let r := job.run w paths canceled
    let session := w.watch.session
    let level := session.tracer.level
    ∃ events, r.world.watch.session.events = session.events ++ events ∧
      WellFormed [w.watch.outer] session.seq session.spans events ∧
      ((∃ e ∈ events, e.kind = .error) ↔
        (level ∈ Level.named ∧ Level.error.rank ≤ level.rank) ∧ canceled = false ∧
          r.failure.isSome = true ∧ ¬ r.FoundNone) ∧
      ErrorsLast (level.emits .start .run) .run events := by
  intro job r session level
  cases canceled with
  | true =>
    refine ⟨[], by simp [r, Job.run, session], ?_, by simp, by intro before e after h; simp at h⟩
    exact (Part.nil (Nat.le_refl _)).wellFormed
  | false =>
    have hobs : job.observer.KeepsTo fun w => w.sink.place? := Watch.observer_keepsTo
    obtain ⟨files, last, hfiles, hlast, htold⟩ := Job.run_told hobs w paths
    obtain ⟨sink, hwatch⟩ := eq_of_told htold
    obtain ⟨opening, inner, closing, e?, hthrough, hbounds, hinner, he, hsome⟩ :=
      foldl_take_run hfiles hlast w.watch
    refine ⟨_, ?_, hthrough.part.wellFormed, ?_, ?_⟩
    · rw [hwatch]
      exact hthrough.events
    · rw [hbounds.exists_error hinner he, hsome, Tracer.emits_eq, Level.emits_error]
      simp [level, session, r]
    · rw [← Tracer.emits_eq]
      exact hbounds.errorsLast hinner

/-- What a reporter says is recorded also if it says that there are no files. A level that lets only
errors through leaves out the spans that the run and its file are at the level of details. -/
theorem run_records_noFiles :
    let disk := (World.ofNodes [(bytes "a.js", .file .ofFile (bytes "\"a\""))]).disk
    let run (level : Level) (reporter : Option (Nat → Outcome → Reply)) :=
      Job.run ⟨Watch.observer, ⟨false, .utf8, .ofWidth 2, []⟩, reporter, fun _ => false⟩
        ⟨disk, .start (.begin (.stream level .text) ⟨0, 0, 0⟩) .memory none 0⟩ [bytes "a.js"] false
    let kinds (r : Run Watch) := r.world.watch.session.events.map fun e => (e.kind, e.scope)
    let stopped := run .error (some fun _ _ => ⟨false, some .noFiles⟩)
    stopped.failure = some .noFiles ∧ kinds stopped = [(.error, .file)] ∧
      kinds (run .detail none) =
        [(.start, .run), (.start, .file), (.finish, .file), (.finish, .run)] ∧
      (run .error none).failure = none ∧ kinds (run .error none) = [] := by
  decide +kernel

end Watch

end Restyler
