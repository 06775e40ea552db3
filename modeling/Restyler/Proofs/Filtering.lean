import Restyler.Proofs.Observers

/-!
# What a level lets through

A session at the debug level records every event that a run calls for. A session at another level
records those of them that its level lets through, with the same names, details and attributes; only
the numbers and the times differ. This needs the two places where events are left out to agree: a
span is left out as a whole when it starts, and any other event when it is recorded. Watches have no
other part in a run.
-/

namespace Restyler

namespace Trace

/-- An event without its time and its numbers. -/
def Event.bare (e : Event) : Event :=
  { e with time := ⟨0, 0, 0⟩, seq := 0, span := 0, parent := 0 }

-- --------------------------------------------------------------------
-- Offered events

/-- From one session to another an event is offered to the tracer, which may leave it out. -/
structure Session.Offers (t t' : Session) (e : Event) : Prop where
  tracer : t'.tracer = t.tracer
  events : t'.events = t.events ++ if t.tracer.emits e.kind e.scope then [e] else []

namespace Session

theorem offers_of_not_emits {t : Session} {e : Event} (h : t.tracer.emits e.kind e.scope = false) :
    t.Offers t e :=
  ⟨rfl, by simp [h]⟩

theorem offers_of_disabled {t : Session} {e : Event} (h : ¬ t.tracer.enabled = true) :
    t.Offers t e :=
  offers_of_not_emits (Bool.eq_false_iff.mpr fun hemits => h (Tracer.enabled_of_emits hemits))

theorem offers_record (t : Session) (kind : Kind) (scope : Scope) (span parent : Nat)
    (name detail : Bytes) (extra : List (Bytes × Bytes)) :
    t.Offers (t.record kind scope span parent name detail extra)
      (t.next kind scope span parent name detail extra) := by
  rw [record_eq]
  exact ⟨rfl, rfl⟩

theorem offers_point (t : Session) (scope : Scope) (name detail : Bytes) (parent : Nat) :
    t.Offers (t.point scope name detail parent) (t.next .point scope 0 parent name detail []) := by
  unfold point
  split
  · exact t.offers_record ..
  · next hoff => exact offers_of_disabled hoff

theorem offers_error (t : Session) (scope : Scope) (name message : Bytes) (parent : Nat) :
    t.Offers (t.error scope name message parent) (t.next .error scope 0 parent name message []) := by
  unfold error
  split
  · exact t.offers_record ..
  · next hoff => exact offers_of_disabled hoff

theorem offers_startSpan (t : Session) (scope : Scope) (name : Bytes) (parent : Nat) :
    t.Offers (t.startSpan scope name parent).1
      (t.next .start scope (t.spans + 1) parent name [] []) := by
  cases hemits : t.tracer.emits .start scope with
  | true =>
    have hrecord := t.nextSpan.offers_record .start scope (t.spans + 1) parent name [] []
    rw [startSpan_of_emits hemits]
    exact ⟨hrecord.tracer, hrecord.events⟩
  | false =>
    rw [startSpan_of_not_emits hemits]
    exact offers_of_not_emits hemits

theorem offers_finishSpan (t : Session) {s : Span} (hs : s.inert = false) (detail : Bytes) :
    t.Offers (t.finishSpan s detail)
      (t.next .finish s.scope s.id s.parent s.name detail s.extra) := by
  rw [finishSpan, hs, Bool.false_or]
  split
  · next hoff => exact offers_of_disabled (by simpa using hoff)
  · exact t.offers_record ..

end Session

-- --------------------------------------------------------------------
-- Echoes

/-- Since the sessions `u₀` and `v₀`, of what `v` has recorded `u` has recorded what its tracer lets
through. -/
structure Session.Echoes (u₀ v₀ u v : Session) : Prop where
  tracer : u.tracer = u₀.tracer
  full : v.tracer = v₀.tracer
  events : ∃ es es', u.events = u₀.events ++ es ∧ v.events = v₀.events ++ es' ∧
    es.map Event.bare = (es'.map Event.bare).filter fun e => u₀.tracer.emits e.kind e.scope

/-- The span `a` is to a tracer what the span `b` is to one that lets everything through. -/
inductive Span.Echoes (t : Tracer) (a b : Span) : Prop
  | inert (ha : a.inert = true) (hb : b.inert = true)
  | hidden (ha : a.inert = true) (hb : b.inert = false) (hscope : t.emits .start b.scope = false)
  | shown (ha : a.inert = false) (hb : b.inert = false) (hscope : a.scope = b.scope)
      (hname : a.name = b.name) (hextra : a.extra = b.extra)

theorem Span.Echoes.withExtra {t : Tracer} {a b : Span} (h : Span.Echoes t a b)
    (key value : Bytes) : Span.Echoes t (a.withExtra key value) (b.withExtra key value) := by
  unfold Span.withExtra
  cases h with
  | inert ha hb =>
    rw [if_pos ha, if_pos hb]
    exact .inert ha hb
  | hidden ha hb hscope =>
    rw [if_pos ha, if_neg (by simp [hb])]
    exact .hidden ha hb hscope
  | shown ha hb hscope hname hextra =>
    rw [if_neg (by simp [ha]), if_neg (by simp [hb])]
    exact .shown ha hb hscope hname (by rw [hextra])

namespace Session.Echoes

variable {u₀ v₀ u v : Session}

theorem refl (u v : Session) : Echoes u v u v := ⟨rfl, rfl, [], [], by simp, by simp, rfl⟩

section
variable (hdebug : v₀.tracer.level = .debug) (h : Echoes u₀ v₀ u v)
include hdebug h

theorem offers {u' v' : Session} {e e' : Event} (hu : u.Offers u' e) (hv : v.Offers v' e')
    (he : e.bare = e'.bare) : Echoes u₀ v₀ u' v' := by
  have hkind : e.kind = e'.kind := (congrArg Event.kind he :)
  have hscope : e.scope = e'.scope := (congrArg Event.scope he :)
  have hall : v.tracer.emits e'.kind e'.scope = true := by
    rw [h.full, Tracer.emits_eq, hdebug]
    rfl
  obtain ⟨es, es', hes, hes', hfilter⟩ := h.events
  refine ⟨hu.tracer.trans h.tracer, hv.tracer.trans h.full,
    es ++ if u₀.tracer.emits e.kind e.scope then [e] else [], es' ++ [e'], ?_, ?_, ?_⟩
  · rw [hu.events, hes, h.tracer, List.append_assoc]
  · rw [hv.events, hes', if_pos hall, List.append_assoc]
  · have hlast : (if u₀.tracer.emits e.kind e.scope then [e] else []).map Event.bare =
        [e'.bare].filter fun e => u₀.tracer.emits e.kind e.scope := by
      rw [← he, hkind, hscope]
      by_cases hemits : u₀.tracer.emits e'.kind e'.scope <;>
        simp [Event.bare, hkind, hscope, hemits]
    rw [List.map_append, List.map_append, List.filter_append, hfilter, hlast]
    rfl

theorem point (scope : Scope) (name detail : Bytes) (parent parent' : Nat) :
    Echoes u₀ v₀ (u.point scope name detail parent) (v.point scope name detail parent') :=
  h.offers hdebug (u.offers_point ..) (v.offers_point ..) rfl

theorem error (scope : Scope) (name message : Bytes) (parent parent' : Nat) :
    Echoes u₀ v₀ (u.error scope name message parent) (v.error scope name message parent') :=
  h.offers hdebug (u.offers_error ..) (v.offers_error ..) rfl

theorem startSpan (scope : Scope) (name : Bytes) (parent parent' : Nat) :
    Echoes u₀ v₀ (u.startSpan scope name parent).1 (v.startSpan scope name parent').1 ∧
      Span.Echoes u₀.tracer (u.startSpan scope name parent).2 (v.startSpan scope name parent').2 := by
  refine ⟨h.offers hdebug (u.offers_startSpan ..) (v.offers_startSpan ..) rfl, ?_⟩
  have hall : v.tracer.emits .start scope = true := by
    rw [h.full, Tracer.emits_eq, hdebug]
    rfl
  rw [startSpan_of_emits hall]
  cases hemits : u.tracer.emits .start scope with
  | true =>
    rw [startSpan_of_emits hemits]
    exact .shown rfl rfl rfl rfl rfl
  | false =>
    rw [startSpan_of_not_emits hemits]
    exact .hidden rfl rfl (h.tracer ▸ hemits)

/-- A span that was left out when it started is left out when it finishes. -/
theorem finishSpan {a b : Span} (hspan : Span.Echoes u₀.tracer a b) (detail : Bytes) :
    Echoes u₀ v₀ (u.finishSpan a detail) (v.finishSpan b detail) := by
  cases hspan with
  | inert ha hb =>
    rw [Session.finishSpan, Session.finishSpan, if_pos (by simp [ha]), if_pos (by simp [hb])]
    exact h
  | hidden ha hb hscope =>
    rw [Session.finishSpan, if_pos (by simp [ha])]
    -- The span finishes in one session only, and the other one would not let that through.
    refine h.offers hdebug (offers_of_not_emits ?_) (v.offers_finishSpan hb detail) rfl
    rw [h.tracer, Tracer.emits_eq]
    exact (Level.emits_finish _ _).trans ((Tracer.emits_eq ..).symm.trans hscope)
  | shown ha hb hscope hname hextra =>
    refine h.offers hdebug (u.offers_finishSpan ha detail) (v.offers_finishSpan hb detail) ?_
    simp only [Event.bare, next, hscope, hname, hextra]

end

theorem drop_events (h : Echoes u₀ v₀ u v) :
    (u.events.drop u₀.events.length).map Event.bare =
      ((v.events.drop v₀.events.length).map Event.bare).filter fun e =>
        u₀.tracer.level.emits e.kind e.scope := by
  obtain ⟨es, es', hes, hes', hfilter⟩ := h.events
  rw [hes, hes', List.drop_left, List.drop_left, hfilter]
  simp only [Tracer.emits_eq]

end Session.Echoes

end Trace

-- --------------------------------------------------------------------
-- Watches

namespace Watch

open Trace

structure Echoes (u₀ v₀ u v : Watch) : Prop where
  session : Session.Echoes u₀.session v₀.session u.session v.session
  run : Span.Echoes u₀.session.tracer u.run v.run
  file : Span.Echoes u₀.session.tracer u.file v.file

theorem Echoes.take {u₀ v₀ u v : Watch} (hdebug : v₀.session.tracer.level = .debug)
    (h : Echoes u₀ v₀ u v) (n : Note) : Echoes u₀ v₀ (u.take n) (v.take n) := by
  obtain ⟨hsession, hrun, hfile⟩ := h
  cases n with
  | runStarted =>
    obtain ⟨hsession, hrun⟩ := hsession.startSpan hdebug .run (bytes "restyle") u.outer v.outer
    exact ⟨hsession, hrun, hfile⟩
  | fileStarted path =>
    obtain ⟨hsession, hfile⟩ := hsession.startSpan hdebug .file path u.run.id v.run.id
    exact ⟨hsession, hrun, hfile⟩
  | phaseStarted phase => exact ⟨hsession, hrun, hfile⟩
  | phaseFinished phase => exact ⟨hsession, hrun, hfile⟩
  | stepChanged step => exact ⟨hsession.point hdebug .., hrun, hfile⟩
  | loadFailed => exact ⟨hsession.finishSpan hdebug hfile _, hrun, hfile⟩
  | writeFailed => exact ⟨hsession.finishSpan hdebug hfile _, hrun, hfile⟩
  | fileFinished status =>
    exact ⟨hsession.finishSpan hdebug (hfile.withExtra _ _) _, hrun, hfile⟩
  | runFailed path f files =>
    have herror := hsession.error hdebug .file path f.message u.run.id v.run.id
    exact ⟨herror.finishSpan hdebug (hrun.withExtra _ _) _, hrun, hfile⟩
  | runFinished files =>
    exact ⟨hsession.finishSpan hdebug (hrun.withExtra _ _) _, hrun, hfile⟩

/-- Watches that are told the same record the same, as far as their levels let them. -/
theorem echoes_of_told {start start' w w' : World Watch} {ns : List Note}
    (hdebug : start'.watch.session.tracer.level = .debug)
    (hrun : Span.Echoes start.watch.session.tracer start.watch.run start'.watch.run)
    (hfile : Span.Echoes start.watch.session.tracer start.watch.file start'.watch.file)
    (h : Told Watch.observer start ns w) (h' : Told Watch.observer start' ns w') :
    Session.Echoes start.watch.session start'.watch.session w.watch.session w'.watch.session := by
  have hechoes : Echoes start.watch start'.watch (ns.foldl Watch.take start.watch)
      (ns.foldl Watch.take start'.watch) :=
    List.foldl_rel ⟨.refl _ _, hrun, hfile⟩ fun n _ _ _ h => h.take hdebug n
  obtain ⟨sink, hwatch⟩ := eq_of_told h
  obtain ⟨sink', hwatch'⟩ := eq_of_told h'
  rw [hwatch, hwatch']
  exact hechoes.session

/-- How a run is traced and timed makes no difference to it: two runs from the same disk have the
same results, reports and failure, and leave the same files, trace files apart. No file that they
take may be a trace file; if the traces are kept outside the tree, there is none. What is traced at
some level is what that level lets through of what is traced at the debug level. -/
theorem runs_agree (options : Options) (reporter : Option (Nat → Outcome → Reply))
    (interrupted : Nat → Bool) (d : Disk) (paths : List Bytes) (canceled : Bool)
    (session session' : Session) (sink sink' : Sink) (timer timer' : Option Timer)
    (outer outer' : Nat)
    (hsinks : ∀ p ∈ paths.flatMap (options.selection d), ∀ l, d.fileAt? p = some l →
      sink.place? ≠ some l ∧ sink'.place? ≠ some l) :
    let job : Job Watch := ⟨Watch.observer, options, reporter, interrupted⟩
    let r := job.run ⟨d, .start session sink timer outer⟩ paths canceled
    let r' := job.run ⟨d, .start session' sink' timer' outer'⟩ paths canceled
    let events := r.world.watch.session.events.drop session.events.length
    let events' := r'.world.watch.session.events.drop session'.events.length
    r'.results = r.results ∧ r'.reported = r.reported ∧ r'.failure = r.failure ∧
      (∀ l, sink.place? ≠ some l → sink'.place? ≠ some l →
        r'.world.disk.tree.get? l = r.world.disk.tree.get? l) ∧
      (session'.tracer.level = .debug →
        events.map Event.bare = (events'.map Event.bare).filter fun e =>
          session.tracer.level.emits e.kind e.scope) := by
  intro job r r' events events'
  have hobs : job.observer.KeepsTo fun w => w.sink.place? := Watch.observer_keepsTo
  have hfree : ∀ p ∈ paths.flatMap (job.options.selection d), ∀ l, d.fileAt? p = some l →
      ¬ (sink.place? = some l ∨ sink'.place? = some l) := by
    intro p hp l hl
    exact not_or.mpr (hsinks p hp l hl)
  have htune := Job.run_inTune hobs ⟨d, .start session sink timer outer⟩
    ⟨d, .start session' sink' timer' outer'⟩ rfl hfree canceled
  change job.InTune _ _ _ r r' at htune
  clear_value r r'
  obtain ⟨w, hr', halike⟩ := htune
  have hworld : r'.world = w := congrArg Run.world hr'
  refine ⟨(congrArg Run.results hr' :), (congrArg Run.reported hr' :),
    (congrArg Run.failure hr' :), ?_, ?_⟩
  · intro l hl hl'
    rw [hworld]
    exact halike.disks.frame l (not_or.mpr ⟨hl, hl'⟩)
  · intro hdebug
    obtain ⟨ns, htold, htold'⟩ := halike.told
    have hechoes := echoes_of_told hdebug (.inert rfl rfl) (.inert rfl rfl) htold htold'
    simp only [events', hworld]
    exact hechoes.drop_events

theorem runs_agree_phase_debug :
    let options : Options := ⟨false, .utf8, .ofWidth 2, []⟩
    let d := (World.ofNodes [(bytes "a.js", .file .ofFile (bytes "\"a\"")),
      (bytes "b.js", .dir .ofDirectory), (bytes "t.log", .file .ofFile [])]).disk
    let session : Session := .begin (.stream .phase .text) ⟨0, 0, 0⟩
    let session' : Session := .begin (.stream .debug .ndjson) ⟨1, 0, 0⟩
    let sink' : Sink := .file ⟨bytes "t.log", [bytes "t.log"], 0, true⟩
    let job : Job Watch := ⟨Watch.observer, options, none, fun _ => false⟩
    let r := job.run ⟨d, .start session .memory none 0⟩ [bytes "."] false
    let r' := job.run ⟨d, .start session' sink' (some .empty) 7⟩ [bytes "."] false
    let events := r.world.watch.session.events.drop session.events.length
    let events' := r'.world.watch.session.events.drop session'.events.length
    [bytes "."].flatMap (options.selection d) = [bytes "a.js"] ∧
      r.results = [⟨bytes "a.js", .updated, bytes "\"a\"", bytes "'a'"⟩] ∧
      r'.results = r.results ∧ r'.reported = r.reported ∧ r'.failure = r.failure ∧
      (∀ l, Sink.memory.place? ≠ some l → sink'.place? ≠ some l →
        r'.world.disk.tree.get? l = r.world.disk.tree.get? l) ∧
      events.map Event.bare = (events'.map Event.bare).filter fun e =>
        session.tracer.level.emits e.kind e.scope := by
  intro options d session session' sink'
  have htaken : [bytes "."].flatMap (options.selection d) = [bytes "a.js"] := by decide +kernel
  have hplace : d.fileAt? (bytes "a.js") = some [bytes "a.js"] := by decide +kernel
  have hsinks : ∀ p ∈ [bytes "."].flatMap (options.selection d), ∀ l, d.fileAt? p = some l →
      Sink.memory.place? ≠ some l ∧ sink'.place? ≠ some l := by
    rw [htaken]
    intro p hp l hl
    rw [List.mem_singleton.mp hp, hplace] at hl
    cases hl
    exact ⟨nofun, by decide +kernel⟩
  obtain ⟨hresults, hreported, hfailure, htree, hevents⟩ := runs_agree options none
    (fun _ => false) d [bytes "."] false session session' .memory sink' none (some .empty) 0 7 hsinks
  refine ⟨htaken, ?_, hresults, hreported, hfailure, htree, hevents rfl⟩
  decide +kernel

end Watch

end Restyler
