import Restyler.Proofs.Content
import Restyler.Proofs.Filtering
import Restyler.Proofs.FixedPoints

/-!
# No step undoes another

A text that the pipeline leaves as it is was left alone by every step. Each step moves something
that no later step can move back: respelling changes the sequence of the quote characters, which the
other two keep, and splitting adds lines, which no other step takes away. What is left is spacing,
and with nothing else done it shows. So a file is unchanged exactly if there is no step to be traced
for it.
-/

namespace Restyler

namespace Rule

-- --------------------------------------------------------------------
-- The sequence of the quote characters

theorem marks_lines (s : Bytes) : marks s = (lines s).flatMap marks := by
  have join (ls : List Bytes) : marks (joinWith [Byte.newline] ls) = ls.flatMap marks := by
    induction ls with
    | nil => rfl
    | cons l ls ih =>
      cases ls with
      | nil => simp [joinWith]
      | cons m ms =>
        have hnewline : marks [Byte.newline] = [] := rfl
        rw [joinWith_cons _ _ (List.cons_ne_nil m ms), marks_append, marks_append, hnewline, ih,
          List.append_nil, ← List.flatMap_cons]
  rw [← join]
  exact congrArg marks (joinWith_splitOn _ s).symm

theorem eq_of_flatMap_eq {α β : Type} {f g : α → List β} {xs : List α}
    (hlength : ∀ x ∈ xs, (f x).length = (g x).length) (h : xs.flatMap f = xs.flatMap g) :
    ∀ x ∈ xs, f x = g x := by
  induction xs with
  | nil => exact nofun
  | cons x xs ih =>
    obtain ⟨hx, hxs⟩ := List.forall_mem_cons.mp hlength
    rw [List.flatMap_cons, List.flatMap_cons] at h
    obtain ⟨hhead, htail⟩ := List.append_inj h hx
    exact List.forall_mem_cons.mpr ⟨hhead, ih hxs htail⟩

/-- A line keeps the number of its quote characters. -/
theorem length_marks_normalizeLine (l : Bytes) :
    (marks (normalizeLine l)).length = (marks l).length := by
  have hkept := (normalizeLine_respelled l).filterMap_eq
    (f := fun b => (Mark.ofByte? b).map fun _ => ()) rfl rfl
  simpa only [marks, ← List.map_filterMap, List.length_map] using congrArg List.length hkept

/-- Respelling shows in the sequence of the quote characters. -/
theorem normalizeQuotes_eq_self_of_marks {s : Bytes} (h : marks (normalizeQuotes s) = marks s) :
    normalizeQuotes s = s := by
  rw [marks_lines, marks_lines s, normalizeQuotes_eq,
    lines_onLines_of_isLine fun _ => isLine_normalizeLine, List.flatMap_map] at h
  have hline := eq_of_flatMap_eq (fun l _ => length_marks_normalizeLine l) h
  refine normalizeQuotes_eq_self_iff.mpr fun l hl => ?_
  rw [← hline l hl]
  exact respells_normalizeLine l

theorem marks_spaceKeywords (s : Bytes) : marks (spaceKeywords s) = marks s :=
  filterMap_spaceKeywords rfl s

theorem marks_splitConditionals {unit : Bytes} (hu : IsIndentation unit) (s : Bytes) :
    marks (splitConditionals unit s) = marks s := by
  refine filterMap_splitConditionals (fun b hb => ?_) hu s
  rw [isLayout, isIndent] at hb
  simp only [Bool.or_eq_true, beq_iff_eq] at hb
  rcases hb with (rfl | rfl) | rfl <;> rfl

theorem length_lines_spaceKeywords (s : Bytes) :
    (lines (spaceKeywords s)).length = (lines s).length := by
  rw [spaceKeywords, lines_onLines_of_isLine fun _ => isLine_spaceFrom 0, List.length_map]

end Rule

-- --------------------------------------------------------------------
-- Unchanged texts

namespace Pipeline

open Rule

theorem eq_self_of_apply_eq_self {width : Int} {s : Bytes} (h : (ofWidth width).apply s = s) :
    normalizeQuotes s = s ∧ spaceKeywords s = s ∧ splitConditionals (ofWidth width).unit s = s := by
  rw [apply_eq] at h
  have hquotes : normalizeQuotes s = s := by
    apply normalizeQuotes_eq_self_of_marks
    conv_rhs => rw [← h]
    rw [marks_splitConditionals (isIndentation_unit width), marks_spaceKeywords]
  rw [hquotes] at h
  have hconditionals : splitConditionals (ofWidth width).unit (spaceKeywords s) = spaceKeywords s := by
    apply splitConditionals_eq_self_iff.mpr
    apply unsplittable_of_length (ofWidth width).unit
    rw [h, length_lines_spaceKeywords]
  have hkeywords : spaceKeywords s = s := hconditionals.symm.trans h
  rw [hkeywords] at hconditionals
  exact ⟨hquotes, hkeywords, hconditionals⟩

theorem changed_eq_nil_iff (width : Int) (s : Bytes) :
    ((ofWidth width).applyEach s).2 = [] ↔ (ofWidth width).apply s = s := by
  rw [List.eq_nil_iff_forall_not_mem]
  constructor
  · intro h
    have hquotes := not_not.mp (mt (mem_changed_iff _ s .quotes).mpr (h .quotes))
    have hkeywords := not_not.mp (mt (mem_changed_iff _ s .keywordParens).mpr (h .keywordParens))
    have hconditionals := not_not.mp (mt (mem_changed_iff _ s .conditionals).mpr (h .conditionals))
    rw [apply_eq, hconditionals, hkeywords, hquotes]
  · intro h step
    obtain ⟨hquotes, hkeywords, hconditionals⟩ := eq_self_of_apply_eq_self h
    rw [mem_changed_iff]
    cases step <;> simp [hquotes, hkeywords, hconditionals]

end Pipeline

-- --------------------------------------------------------------------
-- The steps that are told of a file

def Note.step? : Note → Option Step
  | .stepChanged step => some step
  | _ => none

namespace Job

variable {σ : Type} {job : Job σ} {start w w' : World σ} {ms : List Note} {o : Outcome}

/-- After some notes about a file the observer was told which steps changed its text, and that it is
finished. -/
def Finished (job : Job σ) (start : World σ) (ms : List Note) (o : Outcome) (w' : World σ) : Prop :=
  ∃ inner, (∀ n ∈ inner, n.isInner = true) ∧
    inner.filterMap Note.step? = (job.options.pipeline.applyEach o.before).2 ∧
    Told job.observer start (ms ++ inner ++ [.fileFinished o.status]) w'

theorem store_finished {file : SourceFile} {after : Bytes} {inner : List Note}
    (h : Told job.observer start (ms ++ inner) w) (hinner : ∀ n ∈ inner, n.isInner = true)
    (hsteps : inner.filterMap Note.step? = (job.options.pipeline.applyEach file.text).2)
    (hok : job.store w file after = (w', .ok o)) : job.Finished start ms o w' := by
  have hstarted := notes_told h [.phaseStarted .write]
  rw [store_eq] at hok
  simp only at hok
  split at hok
  · exact absurd (Prod.mk.inj hok).2 nofun
  · next disk _ =>
    have htold := notes_told (hstarted.disk disk) [.phaseFinished .write, .fileFinished .updated]
    cases hok
    refine ⟨inner ++ [.phaseStarted .write, .phaseFinished .write], ?_, ?_, by simpa using htold⟩
    · exact List.forall_mem_append.mpr ⟨hinner, by simp [Note.isInner]⟩
    · rw [List.filterMap_append, hsteps]
      exact List.append_nil _

theorem transform_finished {file : SourceFile} (h : Told job.observer start ms w)
    (hok : job.transform w file = (w', .ok o)) : job.Finished start ms o w' := by
  unfold transform at hok
  generalize hp : job.options.pipeline.applyEach file.text = p at hok
  obtain ⟨after, changed⟩ := p
  have hsteps : (.phaseStarted .transform :: changed.map .stepChanged ++
      [.phaseFinished .transform] : List Note).filterMap Note.step? =
        (job.options.pipeline.applyEach file.text).2 := by
    have hsome : Note.step? ∘ Note.stepChanged = some := rfl
    rw [hp, List.filterMap_append, List.filterMap_cons_none rfl, List.filterMap_map, hsome,
      List.filterMap_some]
    exact List.append_nil changed
  have hinner : ∀ n ∈ Note.phaseStarted .transform :: changed.map .stepChanged ++
      [.phaseFinished .transform], n.isInner = true := by
    simp only [List.cons_append, List.mem_cons, List.mem_append, List.mem_map, List.not_mem_nil,
      or_false]
    rintro n (rfl | ⟨step, -, rfl⟩ | rfl) <;> rfl
  have htold := notes_told h (.phaseStarted .transform :: changed.map .stepChanged ++
    [.phaseFinished .transform])
  simp only at hok
  split at hok
  · cases hok
    exact ⟨_, hinner, hsteps, notes_told htold [.fileFinished .unchanged]⟩
  split at hok
  · cases hok
    exact ⟨_, hinner, hsteps, notes_told htold [.fileFinished .wouldUpdate]⟩
  · exact store_finished htold hinner hsteps hok

theorem restyle_finished {p : Bytes} (hok : job.restyle w p = (w', .ok o)) :
    job.Finished w [.fileStarted p] o w' := by
  have hstarted := notes_told (.refl : Told job.observer w [] w)
    [.fileStarted p, .phaseStarted .load]
  have hloaded := notes_told hstarted [.phaseFinished .load]
  unfold restyle at hok
  simp only at hok
  split at hok
  · exact absurd (Prod.mk.inj hok).2 nofun
  · obtain ⟨inner, hinner, hsteps, htold⟩ := transform_finished hloaded hok
    refine ⟨.phaseStarted .load :: .phaseFinished .load :: inner, ?_, hsteps, by simpa using htold⟩
    simpa [Note.isInner] using hinner

end Job

-- --------------------------------------------------------------------
-- The steps that are traced

namespace Trace.Session

/-- From one session to another some events are recorded, and of steps just these. -/
structure TracesSteps (t t' : Session) (steps : List Step) : Prop where
  tracer : t'.tracer = t.tracer
  events : ∃ es, t'.events = t.events ++ es ∧
    (es.filter (·.scope = .step)).map Event.name = steps.map Step.name

namespace TracesSteps

variable {t t' t'' : Session} {steps steps' : List Step}

theorem refl (t : Session) : t.TracesSteps t [] := ⟨rfl, [], by simp, rfl⟩

theorem trans (h : t.TracesSteps t' steps) (h' : t'.TracesSteps t'' steps') :
    t.TracesSteps t'' (steps ++ steps') := by
  obtain ⟨es, hes, hsteps⟩ := h.events
  obtain ⟨es', hes', hsteps'⟩ := h'.events
  refine ⟨h'.tracer.trans h.tracer, es ++ es', by rw [hes', hes, List.append_assoc], ?_⟩
  rw [List.filter_append, List.map_append, List.map_append, hsteps, hsteps']

/-- An event about something else than a step. -/
theorem of_offers {e : Event} (h : t.Offers t' e) (he : e.scope ≠ .step) :
    t.TracesSteps t' [] := by
  refine ⟨h.tracer, _, h.events, ?_⟩
  split
  · simp [he]
  · rfl

theorem point (hemits : t.tracer.emits .point .step = true) (step : Step) (detail : Bytes)
    (parent : Nat) : t.TracesSteps (t.point .step step.name detail parent) [step] := by
  have h := t.offers_point .step step.name detail parent
  refine ⟨h.tracer, _, h.events, ?_⟩
  rw [if_pos (by simpa [next] using hemits)]
  rfl

theorem finishSpan {s : Span} (hs : s.inert = true ∨ s.scope ≠ .step) (detail : Bytes) :
    t.TracesSteps (t.finishSpan s detail) [] := by
  cases hinert : s.inert with
  | true =>
    rw [Session.finishSpan, if_pos (by simp [hinert])]
    exact .refl t
  | false =>
    have hscope : s.scope ≠ .step := hs.resolve_left (by simp [hinert])
    exact .of_offers (t.offers_finishSpan hinert detail) hscope

end TracesSteps

/-- A span that is started for a file is not one of a step. -/
theorem startSpan_file (t : Session) (name : Bytes) (parent : Nat) :
    (t.startSpan .file name parent).2.inert = true ∨
      (t.startSpan .file name parent).2.scope ≠ .step := by
  unfold startSpan
  split
  · exact .inr (by simp [Scope.file, Scope.step])
  · exact .inl rfl

end Trace.Session

namespace Watch

open Trace Pipeline

theorem take_tracesSteps {n : Note} (hn : n.isInner = true) {u : Watch}
    (hemits : u.session.tracer.emits .point .step = true) :
    u.session.TracesSteps (u.take n).session n.step?.toList ∧ (u.take n).file = u.file := by
  cases n with
  | phaseStarted | phaseFinished => exact ⟨.refl _, rfl⟩
  | stepChanged step => exact ⟨.point hemits step _ _, rfl⟩
  | runStarted | fileStarted | loadFailed | writeFailed | fileFinished | runFailed | runFinished =>
    exact absurd hn nofun

theorem foldl_take_tracesSteps {inner : List Note} (hinner : ∀ n ∈ inner, n.isInner = true)
    {u : Watch} (hemits : u.session.tracer.emits .point .step = true) :
    u.session.TracesSteps (inner.foldl take u).session (inner.filterMap Note.step?) ∧
      (inner.foldl take u).file = u.file := by
  induction inner generalizing u with
  | nil => exact ⟨.refl _, rfl⟩
  | cons n inner ih =>
    obtain ⟨hn, hinner⟩ := List.forall_mem_cons.mp hinner
    obtain ⟨htake, hfile⟩ := take_tracesSteps hn hemits
    obtain ⟨hrest, hfile'⟩ := ih hinner (u := u.take n) (by rw [htake.tracer, hemits])
    refine ⟨?_, hfile'.trans hfile⟩
    have hsteps : (n :: inner).filterMap Note.step? =
        n.step?.toList ++ inner.filterMap Note.step? := by
      rw [List.filterMap_cons]
      cases n.step? <;> rfl
    rw [hsteps]
    exact htake.trans hrest

/-- The events of a file that is finished are about the file, and the steps that changed its text. -/
theorem file_tracesSteps {inner : List Note} (hinner : ∀ n ∈ inner, n.isInner = true) {u : Watch}
    (hemits : u.session.tracer.emits .point .step = true) (path : Bytes) (status : Status) :
    u.session.TracesSteps
      ((Note.fileStarted path :: inner ++ [Note.fileFinished status]).foldl take u).session
      (inner.filterMap Note.step?) := by
  have hfile : Scope.file ≠ .step := by decide
  have hstart : u.session.TracesSteps (u.take (.fileStarted path)).session [] :=
    .of_offers (u.session.offers_startSpan .file path u.run.id) hfile
  have hspan := u.session.startSpan_file path u.run.id
  obtain ⟨hrest, hsame⟩ := foldl_take_tracesSteps hinner (u := u.take (.fileStarted path))
    (by rw [hstart.tracer, hemits])
  have hmatches := ((inner.foldl take (u.take (.fileStarted path))).file).matches_withExtra
    (bytes "status") status.name
  have hfinish := Session.TracesSteps.finishSpan
    (t := (inner.foldl take (u.take (.fileStarted path))).session)
    (by rw [hmatches.inert, hmatches.scope, hsame]; exact hspan) []
  rw [List.cons_append, List.foldl_cons, List.foldl_append]
  have hall := (hstart.trans hrest).trans hfinish
  rwa [List.nil_append, List.append_nil] at hall

/-- A text that the pipeline leaves as it is was left alone by each of its steps. So a file is
unchanged exactly if no step is traced for it, at the level that shows steps. -/
theorem unchanged_iff_no_step (width : Int) :
    (∀ s, (ofWidth width).apply s = s ↔ ∀ step, step ∉ ((ofWidth width).applyEach s).2) ∧
    ∀ (options : Options) (reporter : Option (Nat → Outcome → Reply)) (interrupted : Nat → Bool)
      (w w' : World Watch) (path : Bytes) (o : Outcome),
      let job : Job Watch :=
        ⟨Watch.observer, { options with pipeline := ofWidth width }, reporter, interrupted⟩
      w.watch.session.tracer.level = .debug → job.restyle w path = (w', .ok o) →
      ∃ es, w'.watch.session.events = w.watch.session.events ++ es ∧
        (es.filter (·.scope = .step)).map Event.name =
          ((ofWidth width).applyEach o.before).2.map Step.name ∧
        (o.status = .unchanged ↔ ∀ e ∈ es, e.scope ≠ .step) := by
  refine ⟨fun s => ?_, ?_⟩
  · rw [← List.eq_nil_iff_forall_not_mem, changed_eq_nil_iff]
  intro options reporter interrupted w w' path o job hdebug hok
  have hobs : job.observer.KeepsTo fun w => w.sink.place? := Watch.observer_keepsTo
  have hemits : w.watch.session.tracer.emits .point .step = true := by
    rw [Tracer.emits_eq, hdebug]
    rfl
  obtain ⟨inner, hinner, hsteps, htold⟩ := Job.restyle_finished hok
  obtain ⟨sink, hwatch⟩ := eq_of_told htold
  obtain ⟨es, hes, hnames⟩ := (file_tracesSteps hinner hemits path o.status).events
  rw [hsteps] at hnames
  refine ⟨es, ?_, hnames, ?_⟩
  · rw [hwatch]
    exact hes
  · obtain ⟨-, -, hjudged, -⟩ := Job.restyle_ok hobs hok
    have hafter : o.after = (ofWidth width).apply o.before := hjudged.after_eq
    calc o.status = .unchanged
        ↔ ((ofWidth width).applyEach o.before).2 = [] := by
          rw [hjudged.unchanged, hafter, changed_eq_nil_iff]
      _ ↔ es.filter (·.scope = .step) = [] := by
          rw [← List.map_eq_nil_iff (f := Step.name), ← List.map_eq_nil_iff (f := Event.name)]
          exact iff_of_eq (congrArg (· = []) hnames.symm)
      _ ↔ ∀ e ∈ es, e.scope ≠ .step := by simp

/-- A file that each of the steps changes, in a dry run. -/
theorem unchanged_iff_no_step_announced :
    let options : Options := ⟨true, .utf8, .ofWidth 2, []⟩
    let job : Job Watch := ⟨Watch.observer, options, none, fun _ => false⟩
    let before := bytes "if (typeof(x) == \"a\") return;"
    let w : World Watch :=
      ⟨(World.ofNodes [(bytes "a.js", .file .ofFile before)]).disk,
        .start (.begin (.stream .debug .text) ⟨0, 0, 0⟩) .memory none 0⟩
    let o : Outcome :=
      ⟨bytes "a.js", .wouldUpdate, before, bytes "if (typeof (x) == 'a')\n  return;"⟩
    (job.restyle w (bytes "a.js")).2 = .ok o ∧
      ((ofWidth 2).apply before = before ↔ ∀ step, step ∉ ((ofWidth 2).applyEach before).2) ∧
      ∃ es, (job.restyle w (bytes "a.js")).1.watch.session.events =
          w.watch.session.events ++ es ∧
        (es.filter (·.scope = .step)).map Event.name =
          [bytes "quotes", bytes "keyword-parens", bytes "conditionals"] ∧
        (o.status = .unchanged ↔ ∀ e ∈ es, e.scope ≠ .step) := by
  intro options job before w o
  have hok : (job.restyle w (bytes "a.js")).2 = .ok o := by decide +kernel
  have hchanged : ((ofWidth 2).applyEach before).2.map Step.name =
      [bytes "quotes", bytes "keyword-parens", bytes "conditionals"] := by decide
  obtain ⟨htexts, hfiles⟩ := unchanged_iff_no_step 2
  obtain ⟨es, hes, hnames, hstatus⟩ := hfiles options none (fun _ => false) w _ (bytes "a.js") o rfl
    (Prod.ext rfl hok)
  exact ⟨hok, htexts before, es, hes, hnames.trans hchanged, hstatus⟩

end Watch

end Restyler
