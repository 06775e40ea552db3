import Restyler.Proofs.Run
import Restyler.Proofs.Walk

/-!
# What a dry run announces

A dry run and the real run of the same job go through the same visits: a walk depends on the form of
the tree only, and writing a file keeps that. They load the same texts as well, as long as each path
that they take names a file of its own: a file is written after it was loaded, and never loaded
again. So the real run does what the dry run announces, unless a text cannot be encoded or a file
may not be written to; then it stops there.
-/

namespace Restyler

-- --------------------------------------------------------------------
-- Announcements

/-- What the real run makes of an outcome of the dry run. -/
def Outcome.realized (o : Outcome) : Outcome :=
  { o with status := if o.status = .wouldUpdate then .updated else o.status }

/-- Why the real run cannot do what an outcome announces. -/
inductive Outcome.Refused (encoding : Encoding) (d : Disk) (o : Outcome) : Failure → Prop
  | unencodable {f : Failure} (htext : encoding.encode o.after = .error f) :
      Refused encoding d o (.within o.path f)
  | readOnly {l : Location} (hfile : d.fileAt? o.path = some l)
      (hmode : d.tree.permits l Mode.writable = false) :
      Refused encoding d o
        (.within (bytes "write " ++ o.path) (.os ⟨"open", o.path, .accessDenied⟩))

/-- The results of the real run are those that the dry run announced, up to the first that the disk
or the encoding refuses; without one, both runs end alike. -/
def Announces {σ : Type} (encoding : Encoding) (d : Disk) (dry real : Run σ) : Prop :=
  real.results <+: dry.results.map Outcome.realized ∧
    (real.results.length = dry.results.length ∧ real.failure = dry.failure ∨
      ∃ o f, dry.results[real.results.length]? = some o ∧ o.status = .wouldUpdate ∧
        real.failure = some f ∧ o.Refused encoding d f)

/-- What a dry run announces for a file. -/
def SourceFile.announced (pipeline : Pipeline) (file : SourceFile) : Outcome :=
  let after := pipeline.apply file.text
  ⟨file.path, if after = file.text then .unchanged else .wouldUpdate, file.text, after⟩

-- --------------------------------------------------------------------
-- Paths that a run takes

def Visit.path? : Visit → Option Bytes
  | .file _ p => some p
  | .pass _ | .refused .. => none

/-- The paths of the files that an argument stands for. -/
def Options.expansion (options : Options) (d : Disk) (path : Bytes) : List Bytes :=
  match d.resolve path with
  | .ok (.found _ (.file ..)) => [path]
  | .ok (.found l (.dir mode)) =>
    (Walk.visits d.tree l mode path options.selected).filterMap Visit.path?
  | _ => []

/-- Each path names a file of its own, and not the one that the trace goes to. -/
structure Separate (trace : Option Location) (d : Disk) (ps : List Bytes) : Prop where
  distinct : ∀ p ∈ ps, ∀ q ∈ ps, ∀ l, d.fileAt? p = some l → d.fileAt? q = some l → p = q
  untraced : ∀ p ∈ ps, ∀ l, d.fileAt? p = some l → trace ≠ some l

/-- Where a run may have written after it met some paths. -/
def Touched (trace : Option Location) (d : Disk) (seen : List Bytes) (l : Location) : Prop :=
  trace = some l ∨ ∃ p ∈ seen, d.fileAt? p = some l

theorem Separate.untouched {trace : Option Location} {d : Disk} {ps seen : List Bytes}
    (h : Separate trace d ps) (hseen : ∀ p ∈ seen, p ∈ ps) {p : Bytes} (hp : p ∈ ps)
    (hnew : p ∉ seen) : ∀ l, d.fileAt? p = some l → ¬ Touched trace d seen l := by
  rintro l hl (htrace | ⟨q, hq, hql⟩)
  · exact h.untraced p hp l hl htrace
  · exact hnew (h.distinct p hp q (hseen q hq) l hl hql ▸ hq)

namespace Job

variable {σ : Type}

/-- The job as a dry run, or as a real one. -/
def withDryRun (job : Job σ) (dryRun : Bool) : Job σ :=
  { job with options := { job.options with dryRun } }

/-- Nothing from outside ends the run: no report stops it, and nobody cancels it. -/
structure Undisturbed (job : Job σ) : Prop where
  reports : ∀ answer ∈ job.reporter, ∀ n o, answer n o = .proceed
  looks : ∀ n, job.interrupted n = false

theorem Undisturbed.withDryRun {job : Job σ} (h : job.Undisturbed) (dryRun : Bool) :
    (job.withDryRun dryRun).Undisturbed :=
  ⟨h.reports, h.looks⟩

variable {job : Job σ} {place? : σ → Option Location} {d : Disk} {places : Location → Prop}

-- --------------------------------------------------------------------
-- One file

/-- The disk differs from an earlier one at some places at most, and those are all that the observer
writes to. -/
structure Near (place? : σ → Option Location) (places : Location → Prop) (d : Disk)
    (w : World σ) : Prop where
  writes : Disk.Within places d w.disk
  place : ∀ l, place? w.watch = some l → places l

theorem Near.notes {w : World σ} (h : Near place? places d w) (hobs : job.observer.KeepsTo place?)
    (ns : List Note) : Near place? places d (job.notes w ns) where
  writes := h.writes.trans ((notes_aside hobs w ns).writes.mono h.place)
  place := (notes_aside hobs w ns).place ▸ h.place

theorem transform_dry (hdry : job.options.dryRun = true) (w : World σ) (file : SourceFile) :
    (job.transform w file).2 = .ok (file.announced job.options.pipeline) := by
  obtain ⟨ns, htransform⟩ := job.transform_eq w file
  rw [htransform, hdry, SourceFile.announced]
  generalize job.options.pipeline.apply file.text = after
  simp only
  split
  · rfl
  · rfl

section
variable (hobs : job.observer.KeepsTo place?) {w : World σ} (hw : Near place? places d w)
include hobs hw

theorem store_snd {file : SourceFile} {after : Bytes} {l : Location}
    (hl : d.fileAt? file.path = some l) :
    (job.store w file after).2 = .ok ⟨file.path, .updated, file.text, after⟩ ∨
      ∃ f, (job.store w file after).2 = .error f ∧
        Outcome.Refused file.encoding d ⟨file.path, .wouldUpdate, file.text, after⟩ f := by
  have hv := (hw.notes hobs [.phaseStarted .write]).writes
  rw [store_eq]
  generalize job.notes w [.phaseStarted .write] = v at hv
  simp only
  cases hsave : file.save v.disk after with
  | ok saved => exact .inl rfl
  | error f =>
    refine .inr ⟨f, rfl, ?_⟩
    rcases SourceFile.save_error ((hv.fileAt? _).trans hl) hsave with ⟨y, hy, rfl⟩ | ⟨hmode, rfl⟩
    · exact .unencodable hy
    · exact .readOnly hl (hv.form.permits l _ ▸ hmode)

theorem transform_real {file : SourceFile} {l : Location} (hdry : job.options.dryRun = false)
    (hl : d.fileAt? file.path = some l) :
    (job.transform w file).2 = .ok (file.announced job.options.pipeline).realized ∨
      ∃ f, (job.transform w file).2 = .error f ∧
        (file.announced job.options.pipeline).status = .wouldUpdate ∧
        (file.announced job.options.pipeline).Refused file.encoding d f := by
  obtain ⟨ns, htransform⟩ := job.transform_eq w file
  rw [htransform, hdry, SourceFile.announced]
  generalize job.options.pipeline.apply file.text = after
  simp only
  split
  · exact .inl rfl
  · rcases store_snd hobs (hw.notes hobs ns) hl with hok | ⟨f, hf, hrefused⟩
    · exact .inl hok
    · exact .inr ⟨f, hf, rfl, hrefused⟩

/-- A file that nothing was written to is loaded as from the disk at the start. -/
theorem restyle_cases {p : Bytes} (hp : ∀ l, d.fileAt? p = some l → ¬ places l) :
    (∃ f, SourceFile.load d p job.options.encoding = .error f ∧ (job.restyle w p).2 = .error f) ∨
      ∃ file v, SourceFile.load d p job.options.encoding = .ok file ∧
        job.restyle w p = job.transform v file ∧ Near place? places d v := by
  have hv := hw.notes hobs [.fileStarted p, .phaseStarted .load]
  unfold restyle
  generalize job.notes w [.fileStarted p, .phaseStarted .load] = v at hv
  simp only [SourceFile.load_eq hv.writes hp]
  cases SourceFile.load d p job.options.encoding with
  | error f => exact .inl ⟨f, rfl, rfl⟩
  | ok file => exact .inr ⟨file, _, rfl, rfl, hv.notes hobs [.phaseFinished .load]⟩

theorem restyle_dry {p : Bytes} (hdry : job.options.dryRun = true)
    (hp : ∀ l, d.fileAt? p = some l → ¬ places l) :
    (job.restyle w p).2 = (SourceFile.load d p job.options.encoding).map
      (SourceFile.announced job.options.pipeline) := by
  rcases restyle_cases hobs hw hp with ⟨f, hload, hf⟩ | ⟨file, v, hload, heq, -⟩
  · rw [hload, hf]
    rfl
  · rw [hload, heq, transform_dry hdry]
    rfl

theorem restyle_real {p : Bytes} (hdry : job.options.dryRun = false)
    (hp : ∀ l, d.fileAt? p = some l → ¬ places l) :
    (job.restyle w p).2 = (SourceFile.load d p job.options.encoding).map
        (fun file => (file.announced job.options.pipeline).realized) ∨
      ∃ file f, SourceFile.load d p job.options.encoding = .ok file ∧
        (job.restyle w p).2 = .error f ∧
        (file.announced job.options.pipeline).status = .wouldUpdate ∧
        (file.announced job.options.pipeline).Refused job.options.encoding d f := by
  rcases restyle_cases hobs hw hp with ⟨f, hload, hf⟩ | ⟨file, v, hload, heq, hv⟩
  · left
    rw [hload, hf]
    rfl
  · obtain ⟨rfl, henc, l, m, c, hl, -, -⟩ := SourceFile.load_ok hload
    rw [hload, heq]
    rcases transform_real hobs hv hdry hl with hok | ⟨f, hf, hstatus, hrefused⟩
    · exact .inl hok
    · exact .inr ⟨file, f, rfl, hf, hstatus, henc ▸ hrefused⟩

/-- A file on which the dry run fails is one on which the real run fails. For any other the real run
does what the dry run announces, or is refused it. -/
theorem restyle_announced {v : World σ} (hv : Near place? places d v) {p : Bytes}
    (hp : ∀ l, d.fileAt? p = some l → ¬ places l) :
    (∃ f, ((job.withDryRun true).restyle w p).2 = .error f ∧
      ((job.withDryRun false).restyle v p).2 = .error f) ∨
    ∃ o : Outcome, o.path = p ∧ ((job.withDryRun true).restyle w p).2 = .ok o ∧
      (((job.withDryRun false).restyle v p).2 = .ok o.realized ∨
        ∃ f, ((job.withDryRun false).restyle v p).2 = .error f ∧ o.status = .wouldUpdate ∧
          o.Refused job.options.encoding d f) := by
  have hobs' (b : Bool) : (job.withDryRun b).observer.KeepsTo place? := hobs
  have hdry : _ = (SourceFile.load d p job.options.encoding).map _ :=
    restyle_dry (hobs' true) hw rfl hp
  have hreal : _ = (SourceFile.load d p job.options.encoding).map _ ∨
      ∃ file f, SourceFile.load d p job.options.encoding = .ok file ∧ _ :=
    restyle_real (hobs' false) hv rfl hp
  cases hload : SourceFile.load d p job.options.encoding with
  | error f =>
    rw [hload] at hdry hreal
    rcases hreal with hreal | ⟨file, f', hok, -⟩
    · exact .inl ⟨f, hdry, hreal⟩
    · exact absurd hok nofun
  | ok file =>
    obtain ⟨hpath, -⟩ := SourceFile.load_ok hload
    rw [hload] at hdry hreal
    refine .inr ⟨_, hpath, hdry, ?_⟩
    rcases hreal with hreal | ⟨file', f, hok, hf, hstatus, hrefused⟩
    · exact .inl hreal
    · cases hok
      exact .inr ⟨f, hf, hstatus, hrefused⟩

end

-- --------------------------------------------------------------------
-- What is done so far stays

theorem report_results (job : Job σ) (r : Run σ) (o : Outcome) :
    (job.report r o).results = r.results := by
  unfold report
  split
  · rfl
  simp only
  split <;> rfl

theorem process_of_seen (job : Job σ) {r : Run σ} {p : Bytes} (hp : p ∈ r.seen) :
    job.process r p = r := by
  simp [process, hp]

theorem process_results (job : Job σ) (r : Run σ) (p : Bytes) :
    r.results <+: (job.process r p).results := by
  unfold process
  split
  · exact List.prefix_rfl
  simp only
  split
  · exact List.prefix_rfl
  split
  · exact List.prefix_rfl
  · rw [report_results]
    exact List.prefix_append _ _

theorem caught_results (r : Run σ) (names : List Bytes) : (r.caught names).results = r.results := by
  unfold Run.caught
  split <;> rfl

theorem visit_results (job : Job σ) (r : Run σ) (v : Visit) :
    r.results <+: (job.visit r v).results := by
  unfold visit
  split
  · exact List.prefix_rfl
  cases v with
  | refused names e => exact List.prefix_rfl
  | pass names =>
    simp only
    split <;> exact List.prefix_rfl
  | file names path =>
    simp only
    split
    · exact List.prefix_rfl
    · rw [caught_results]
      exact process_results job (job.look r) path

theorem expand_results (job : Job σ) (r : Run σ) (p : Bytes) :
    r.results <+: (job.expand r p).results := by
  have hwalk (vs : List Visit) : r.results <+: (vs.foldl job.visit r).results :=
    List.foldlRecOn (motive := fun r' : Run σ => r.results <+: r'.results) vs _ List.prefix_rfl
      fun _ h v _ => h.trans (visit_results job _ v)
  unfold expand
  split
  · exact List.prefix_rfl
  · exact List.prefix_rfl
  · exact process_results job r p
  · exact hwalk _
  · exact hwalk _

theorem argument_results (job : Job σ) (r : Run σ) (p : Bytes) :
    r.results <+: (job.argument r p).results := by
  unfold argument
  split
  · exact List.prefix_rfl
  have hexpand := expand_results job r p
  simp only
  split
  · exact hexpand
  · exact hexpand

-- --------------------------------------------------------------------
-- Many files

/-- A run that goes on. It has written to files whose paths it met, and to the trace. -/
structure Underway (place? : σ → Option Location) (start : World σ) (ps : List Bytes)
    (r : Run σ) : Prop where
  place : place? r.world.watch = place? start.watch
  writes : Disk.Within (Touched (place? start.watch) start.disk r.seen) start.disk r.world.disk
  seen : ∀ p ∈ r.seen, p ∈ ps
  canceled : r.canceled = false
  failure : r.failure = none
  skipped : r.skipped = none

/-- The real run `s` goes on where the dry run `r` does. -/
structure InStep (place? : σ → Option Location) (start : World σ) (ps : List Bytes)
    (r s : Run σ) : Prop where
  dry : Underway place? start ps r
  real : Underway place? start ps s
  seen : s.seen = r.seen
  results : s.results = r.results.map Outcome.realized

/-- How the two runs stand, visit by visit: they are in step, or both have failed alike, or the real
run was refused what the dry run had announced. -/
inductive Abreast (encoding : Encoding) (place? : σ → Option Location) (start : World σ)
    (ps : List Bytes) (dry real : Run σ) : Prop
  | inStep (h : InStep place? start ps dry real)
  | failed {f : Failure} (hdry : dry.failure = some f) (hreal : real.failure = some f)
      (hresults : real.results = dry.results.map Outcome.realized)
  | refused {earlier : List Outcome} {o : Outcome} {f : Failure}
      (hdry : earlier ++ [o] <+: dry.results) (hreal : real.results = earlier.map Outcome.realized)
      (hstatus : o.status = .wouldUpdate) (hfailure : real.failure = some f)
      (hrefused : o.Refused encoding start.disk f)

variable {start : World σ} {ps : List Bytes} {r dry real : Run σ} {p : Bytes}

/-- A failed run stays as it is while the other one goes on, so only runs in step matter. -/
theorem Abreast.step {encoding : Encoding} {dry' real' : Run σ}
    (h : Abreast encoding place? start ps dry real)
    (hdry : dry.failure.isSome = true → dry' = dry)
    (hreal : real.failure.isSome = true → real' = real) (hmore : dry.results <+: dry'.results)
    (hstep : InStep place? start ps dry real → Abreast encoding place? start ps dry' real') :
    Abreast encoding place? start ps dry' real' := by
  cases h with
  | inStep h => exact hstep h
  | failed hdryFailure hrealFailure hresults =>
    rw [hdry (by simp [hdryFailure]), hreal (by simp [hrealFailure])]
    exact .failed hdryFailure hrealFailure hresults
  | refused hdryResults hrealResults hstatus hfailure hrefused =>
    rw [hreal (by simp [hfailure])]
    exact .refused (hdryResults.trans hmore) hrealResults hstatus hfailure hrefused

theorem Underway.near (hr : Underway place? start ps r) :
    Near place? (Touched (place? start.watch) start.disk r.seen) start.disk r.world :=
  ⟨hr.writes, fun _ hl => .inl (hr.place ▸ hl)⟩

theorem Underway.restyle (hr : Underway place? start ps r) (hobs : job.observer.KeepsTo place?)
    (hp : p ∈ ps) {o : Outcome} (hrestyle : (job.restyle r.world p).2 = .ok o) (ho : o.path = p)
    {r' : Run σ} (hworld : r'.world = (job.restyle r.world p).1) (hseen : r'.seen = p :: r.seen)
    (hcanceled : r'.canceled = r.canceled) (hfailure : r'.failure = r.failure)
    (hskipped : r'.skipped = none) : Underway place? start ps r' := by
  obtain ⟨l, hl, -, heffect, -⟩ := restyle_ok hobs (Prod.ext hworld.symm hrestyle)
  rw [ho, hr.writes.fileAt?] at hl
  refine ⟨heffect.place.trans hr.place, ?_, ?_,
    hcanceled.trans hr.canceled, hfailure.trans hr.failure, hskipped⟩
  · rw [hseen]
    refine (hr.writes.mono ?_).trans (heffect.writes.mono ?_)
    · rintro k (htrace | ⟨q, hq, hqk⟩)
      · exact .inl htrace
      · exact .inr ⟨q, List.mem_cons_of_mem p hq, hqk⟩
    · rintro k (htrace | ⟨-, rfl⟩)
      · exact .inl (hr.place ▸ htrace)
      · exact .inr ⟨p, List.mem_cons_self, hl⟩
  · rw [hseen]
    exact List.forall_mem_cons.mpr ⟨hp, hr.seen⟩

theorem Underway.look (hr : Underway place? start ps r) :
    Underway place? start ps { r with looks := r.looks + 1, skipped := none } :=
  ⟨hr.place, hr.writes, hr.seen, hr.canceled, hr.failure, rfl⟩

theorem caught_of_none (hr : r.failure = none) (names : List Bytes) : r.caught names = r := by
  rw [Run.caught, hr, Option.bind_none]

theorem caught_of_failed {f : Failure} (hr : r.failure = some f) (hf : f.asksToSkip = false)
    (names : List Bytes) : r.caught names = r := by
  have hskips : f.skips? names = none := by
    unfold Failure.skips?
    split
    · cases hf
    · cases hf
    · rfl
  rw [Run.caught, hr, Option.bind_some, hskips]

section
variable (hcalm : job.Undisturbed)
include hcalm

theorem report_eq (r : Run σ) (o : Outcome) :
    ∃ reported, job.report r o = { r with reported } := by
  unfold report
  split
  · exact ⟨r.reported, rfl⟩
  · next answer hanswer =>
    refine ⟨r.reported ++ [o], ?_⟩
    simp only [hcalm.reports answer hanswer, Reply.proceed, Bool.or_false]

theorem look_eq (hr : r.canceled = false) :
    job.look r = { r with looks := r.looks + 1, skipped := none } := by
  simp only [look, hcalm.looks, hr, Bool.or_false]

theorem process_eq (hr : r.canceled = false) (hnew : p ∉ r.seen) :
    job.process r p =
      let r' := { r with seen := p :: r.seen, looks := r.looks + 1, skipped := none }
      match job.restyle r.world p with
      | (w, .error f) => ({ r' with world := w }).fail f
      | (w, .ok o) => job.report { r' with world := w, results := r.results ++ [o] } o := by
  unfold process
  rw [look_eq hcalm (r := { r with seen := p :: r.seen }) hr]
  rw [if_neg (by simpa using hnew)]
  simp only [hr]
  cases job.restyle r.world p with
  | mk w x => cases x <;> rfl

theorem process_error {f : Failure} (hr : r.canceled = false) (hnew : p ∉ r.seen)
    (hrestyle : (job.restyle r.world p).2 = .error f) :
    (job.process r p).failure = some f ∧ (job.process r p).results = r.results := by
  have heq : job.restyle r.world p = ((job.restyle r.world p).1, .error f) := Prod.ext rfl hrestyle
  rw [process_eq hcalm hr hnew, heq]
  exact ⟨rfl, rfl⟩

theorem process_ok {o : Outcome} (hr : r.canceled = false) (hnew : p ∉ r.seen)
    (hrestyle : (job.restyle r.world p).2 = .ok o) :
    ∃ reported, job.process r p = { r with
      world := (job.restyle r.world p).1, results := r.results ++ [o], seen := p :: r.seen,
      looks := r.looks + 1, skipped := none, reported } := by
  have heq : job.restyle r.world p = ((job.restyle r.world p).1, .ok o) := Prod.ext rfl hrestyle
  rw [process_eq hcalm hr hnew, heq]
  exact report_eq hcalm _ o

/-- No file asks for something to be left out. -/
theorem process_caught (hr : r.canceled = false) (hfailure : r.failure = none) (p : Bytes)
    (names : List Bytes) : (job.process r p).caught names = job.process r p := by
  by_cases hnew : p ∈ r.seen
  · rw [process_of_seen job hnew, caught_of_none hfailure]
  rcases hrestyle : job.restyle r.world p with ⟨w, f | o⟩
  · have hf : f.OfFile := restyle_concerns hrestyle
    obtain ⟨hfailed, -⟩ := process_error hcalm hr hnew (congrArg Prod.snd hrestyle)
    exact caught_of_failed hfailed hf.2 names
  · obtain ⟨reported, hprocess⟩ := process_ok hcalm hr hnew (congrArg Prod.snd hrestyle)
    rw [hprocess]
    refine caught_of_none ?_ names
    exact hfailure

theorem visit_eq (hr : Underway place? start ps r) (v : Visit) :
    let r' := { r with looks := r.looks + 1, skipped := none }
    job.visit r v =
      match v with
      | .refused _ e => r.fail (.os e)
      | .pass _ => r'
      | .file _ path => job.process r' path := by
  intro r'
  unfold visit
  rw [if_neg (by simp [hr.failure, Run.skips, hr.skipped]), look_eq hcalm hr.canceled]
  cases v with
  | refused names e => rfl
  | pass names => simp [hr.canceled, r']
  | file names path =>
    have hgo : ¬ r'.canceled = true := Bool.eq_false_iff.mp hr.canceled
    exact (if_neg hgo).trans (process_caught hcalm (r := r') hr.canceled hr.failure path names)

end

section
variable (hobs : job.observer.KeepsTo place?) (hcalm : job.Undisturbed)
  (hps : Separate (place? start.watch) start.disk ps)
include hobs hcalm hps

theorem process_abreast (h : InStep place? start ps dry real) (hp : p ∈ ps) :
    Abreast job.options.encoding place? start ps ((job.withDryRun true).process dry p)
      ((job.withDryRun false).process real p) := by
  obtain ⟨hdry, hreal, hseen, hresults⟩ := h
  by_cases hnew : p ∈ dry.seen
  · have hold : p ∈ real.seen := hseen ▸ hnew
    rw [process_of_seen _ hnew, process_of_seen _ hold]
    exact .inStep ⟨hdry, hreal, hseen, hresults⟩
  have hnew' : p ∉ real.seen := hseen ▸ hnew
  have hobs' (b : Bool) : (job.withDryRun b).observer.KeepsTo place? := hobs
  have hcalm' (b : Bool) : (job.withDryRun b).Undisturbed := hcalm.withDryRun b
  -- The path is new, so neither run has written to its file yet.
  rcases restyle_announced hobs hdry.near (hseen ▸ hreal.near)
    (hps.untouched hdry.seen hp hnew) with
    ⟨f, hdryRun, hrealRun⟩ | ⟨o, ho, hdryRun, hrealRun⟩
  · obtain ⟨hdryFailure, hdryResults⟩ := process_error (hcalm' true) hdry.canceled hnew hdryRun
    obtain ⟨hrealFailure, hrealResults⟩ :=
      process_error (hcalm' false) hreal.canceled hnew' hrealRun
    exact .failed hdryFailure hrealFailure (by rw [hdryResults, hrealResults, hresults])
  obtain ⟨dryReported, hdryProcess⟩ := process_ok (hcalm' true) hdry.canceled hnew hdryRun
  rw [hdryProcess]
  rcases hrealRun with hrealRun | ⟨f, hrealRun, hstatus, hrefused⟩
  · obtain ⟨realReported, hrealProcess⟩ := process_ok (hcalm' false) hreal.canceled hnew' hrealRun
    rw [hrealProcess]
    refine .inStep ⟨hdry.restyle (hobs' true) hp hdryRun ho rfl rfl rfl rfl rfl,
      hreal.restyle (hobs' false) hp hrealRun ho rfl rfl rfl rfl rfl, ?_, ?_⟩
    · simp only [hseen]
    · simp only [hresults, List.map_append, List.map_cons, List.map_nil]
  · obtain ⟨hrealFailure, hrealResults⟩ :=
      process_error (hcalm' false) hreal.canceled hnew' hrealRun
    exact .refused List.prefix_rfl (hrealResults.trans hresults) hstatus hrealFailure hrefused

theorem visit_abreast (h : Abreast job.options.encoding place? start ps dry real) (v : Visit)
    (hv : ∀ p ∈ v.path?, p ∈ ps) :
    Abreast job.options.encoding place? start ps ((job.withDryRun true).visit dry v)
      ((job.withDryRun false).visit real v) := by
  refine h.step (fun hf => by simp [visit, hf]) (fun hf => by simp [visit, hf])
    (visit_results _ dry v) fun hin => ?_
  have hlook : InStep place? start ps { dry with looks := dry.looks + 1, skipped := none }
      { real with looks := real.looks + 1, skipped := none } :=
    ⟨hin.dry.look, hin.real.look, hin.seen, hin.results⟩
  rw [visit_eq (hcalm.withDryRun true) hin.dry, visit_eq (hcalm.withDryRun false) hin.real]
  cases v with
  | refused names e => exact .failed rfl rfl hin.results
  | pass names => exact .inStep hlook
  | file names path => exact process_abreast hobs hcalm hps hlook (hv path rfl)

theorem visits_abreast (h : Abreast job.options.encoding place? start ps dry real) (vs : List Visit)
    (hvs : ∀ p ∈ vs.filterMap Visit.path?, p ∈ ps) :
    Abreast job.options.encoding place? start ps (vs.foldl (job.withDryRun true).visit dry)
      (vs.foldl (job.withDryRun false).visit real) :=
  List.foldl_rel h fun v hv _ _ h' => visit_abreast hobs hcalm hps h' v fun p hp =>
    hvs p (List.mem_filterMap.mpr ⟨v, hv, hp⟩)

end

/-- What an argument stands for is the same as at the start. -/
theorem expand_eq (job : Job σ) {d : Disk} (h : Disk.Within places d r.world.disk) (path : Bytes) :
    job.expand r path =
      match d.resolve path with
      | .error e => r.fail (.os ⟨"stat", path, e⟩)
      | .ok (.free ..) => r.fail (.os ⟨"stat", path, .noEntry⟩)
      | .ok (.found _ (.file ..)) => job.process r path
      | .ok (.found l (.dir mode)) =>
        (Walk.visits d.tree l mode path job.options.selected).foldl job.visit r
      | .ok (.removed ..) => (Walk.visitsOfRemoved path).foldl job.visit r := by
  unfold expand
  rcases h.resolve_cases path with heq | ⟨l, m, c, c', hd, he⟩
  · rw [heq]
    match d.resolve path with
    | .error _ | .ok (.free ..) | .ok (.found _ (.file ..)) | .ok (.removed ..) => rfl
    | .ok (.found l (.dir mode)) => simp only [Walk.visits_form h.form]
  · simp only [hd, he]

/-- A failure is told to the observer, which changes neither the results nor the failure. -/
theorem argument_eq (job : Job σ) (hr : r.failure = none) (path : Bytes) :
    ∃ w, job.argument r path = { job.expand r path with world := w } ∧
      ((job.expand r path).failure = none → w = (job.expand r path).world) := by
  unfold argument
  rw [if_neg (by simp [hr])]
  simp only
  split
  · exact ⟨_, rfl, fun _ => rfl⟩
  · next h => exact ⟨_, rfl, fun h' => absurd h' (by simp [h])⟩

section
variable (hobs : job.observer.KeepsTo place?) (hcalm : job.Undisturbed)
  (hps : Separate (place? start.watch) start.disk ps)
include hobs hcalm hps

theorem expand_abreast (h : InStep place? start ps dry real) {path : Bytes}
    (hpath : ∀ p ∈ job.options.expansion start.disk path, p ∈ ps) :
    Abreast job.options.encoding place? start ps ((job.withDryRun true).expand dry path)
      ((job.withDryRun false).expand real path) := by
  rw [expand_eq _ h.dry.writes, expand_eq _ h.real.writes]
  rw [Options.expansion] at hpath
  match hresolve : start.disk.resolve path with
  | .error e => exact .failed rfl rfl h.results
  | .ok (.free ..) => exact .failed rfl rfl h.results
  | .ok (.found _ (.file ..)) =>
    rw [hresolve] at hpath
    exact process_abreast hobs hcalm hps h (hpath path List.mem_cons_self)
  | .ok (.found l (.dir mode)) =>
    rw [hresolve] at hpath
    exact visits_abreast hobs hcalm hps (.inStep h) _ hpath
  | .ok (.removed ..) => exact visits_abreast hobs hcalm hps (.inStep h) _ nofun

theorem argument_abreast (h : Abreast job.options.encoding place? start ps dry real) {path : Bytes}
    (hpath : ∀ p ∈ job.options.expansion start.disk path, p ∈ ps) :
    Abreast job.options.encoding place? start ps ((job.withDryRun true).argument dry path)
      ((job.withDryRun false).argument real path) := by
  refine h.step (fun hf => by simp [argument, hf]) (fun hf => by simp [argument, hf])
    (argument_results _ dry path) fun hin => ?_
  obtain ⟨w, hw, hw'⟩ := argument_eq (job.withDryRun true) hin.dry.failure path
  obtain ⟨v, hv, hv'⟩ := argument_eq (job.withDryRun false) hin.real.failure path
  rw [hw, hv]
  cases expand_abreast hobs hcalm hps hin hpath with
  | inStep h =>
    rw [hw' h.dry.failure, hv' h.real.failure]
    exact .inStep h
  | failed hdry hreal hresults => exact .failed hdry hreal hresults
  | refused hdry hreal hstatus hfailure hrefused =>
    exact .refused hdry hreal hstatus hfailure hrefused

end

theorem conclude_results (job : Job σ) (r : Run σ) : (job.conclude r).results = r.results := by
  unfold conclude
  split
  · rfl
  simp only
  split <;> rfl

theorem conclude_failure (job : Job σ) (r : Run σ) :
    (job.conclude r).failure =
      if r.failure = none ∧ r.results = [] then some .noFiles else r.failure := by
  unfold conclude
  cases hr : r.failure with
  | some f => simp [hr]
  | none => by_cases hresults : r.results = [] <;> simp [hr, hresults, Run.note, Run.fail]

theorem Abreast.announces {encoding : Encoding}
    (h : Abreast encoding place? start ps dry real) (job job' : Job σ) :
    Announces encoding start.disk (job.conclude dry) (job'.conclude real) := by
  unfold Announces
  rw [conclude_results, conclude_results, conclude_failure, conclude_failure]
  cases h with
  | inStep h =>
    refine ⟨h.results ▸ List.prefix_rfl, .inl ⟨by rw [h.results, List.length_map], ?_⟩⟩
    simp only [h.dry.failure, h.real.failure, h.results, List.map_eq_nil_iff]
  | failed hdry hreal hresults =>
    refine ⟨hresults ▸ List.prefix_rfl, .inl ⟨by rw [hresults, List.length_map], ?_⟩⟩
    simp [hdry, hreal]
  | @refused earlier o f hdry hreal hstatus hfailure hrefused =>
    obtain ⟨later, hlater⟩ := hdry
    refine ⟨?_, .inr ⟨o, f, ?_, hstatus, by simp [hfailure], hrefused⟩⟩
    · rw [hreal, ← hlater, List.append_assoc, List.map_append]
      exact List.prefix_append _ _
    · rw [hreal, ← hlater, List.length_map]
      simp

/-- The dry run announces what the real run does. -/
theorem run_announces (job : Job σ) (hobs : job.observer.KeepsTo place?) (hcalm : job.Undisturbed)
    (w : World σ) {paths : List Bytes}
    (hpaths : Separate (place? w.watch) w.disk (paths.flatMap (job.options.expansion w.disk))) :
    Announces job.options.encoding w.disk ((job.withDryRun true).run w paths false)
      ((job.withDryRun false).run w paths false) := by
  have hstart : Underway place? w (paths.flatMap (job.options.expansion w.disk))
      ⟨job.observer .runStarted w, [], [], [], false, none, 0, none⟩ :=
    ⟨(hobs .runStarted w).place, (hobs .runStarted w).writes.mono fun _ => .inl, nofun, rfl, rfl,
      rfl⟩
  apply Abreast.announces
  refine List.foldl_rel (.inStep ⟨hstart, hstart, rfl, rfl⟩) fun path hpath _ _ h => ?_
  exact argument_abreast hobs hcalm hpaths h fun p hp => List.mem_flatMap.mpr ⟨path, hpath, hp⟩

end Job

-- --------------------------------------------------------------------
-- Traced runs

/-- The dry run of a job that is left alone announces what its real run does, if each path that they
take names a file of its own. -/
theorem Watch.dryRun_announces (options : Options) (reporter : Option (Nat → Outcome → Reply))
    (hreporter : ∀ answer ∈ reporter, ∀ n o, answer n o = .proceed) (w : World Watch)
    (paths : List Bytes)
    (hpaths : Separate w.watch.sink.place? w.disk (paths.flatMap (options.expansion w.disk))) :
    let job (dryRun : Bool) : Job Watch :=
      ⟨Watch.observer, { options with dryRun }, reporter, fun _ => false⟩
    Announces options.encoding w.disk ((job true).run w paths false)
      ((job false).run w paths false) := by
  intro job
  exact Job.run_announces ⟨Watch.observer, options, reporter, fun _ => false⟩
    Watch.observer_keepsTo ⟨hreporter, fun _ => rfl⟩ w hpaths

theorem Watch.dryRun_announces_directory :
    let options : Options := ⟨false, .utf8, .ofWidth 2, []⟩
    let w := World.ofNodes [(bytes "a.js", .file .ofFile (bytes "\"a\"")),
      (bytes "b.js", .file .ofFile (bytes "'b'")), (bytes "c.txt", .file .ofFile (bytes "\"c\""))]
    let job (dryRun : Bool) : Job Watch :=
      ⟨Watch.observer, { options with dryRun }, none, fun _ => false⟩
    Announces .utf8 w.disk ((job true).run w [bytes ".", bytes "a.js"] false)
      ((job false).run w [bytes ".", bytes "a.js"] false) := by
  intro options w job
  have hdistinct : ∀ p ∈ [bytes ".", bytes "a.js"].flatMap (options.expansion w.disk),
      ∀ q ∈ [bytes ".", bytes "a.js"].flatMap (options.expansion w.disk),
        w.disk.fileAt? p = w.disk.fileAt? q → p = q := by
    decide +kernel
  exact Watch.dryRun_announces options none nofun w _
    ⟨fun p hp q hq l hpl hql => hdistinct p hp q hq (hpl.trans hql.symm), nofun⟩

/-- A file that may be read and not be written to stops the real run only. -/
theorem Watch.dryRun_stops_short :
    let options : Options := ⟨false, .utf8, .ofWidth 2, []⟩
    let text := bytes "x = \"a\";\n"
    let w := World.ofNodes [(bytes "a.js", .file 0o444 text)]
    let job (dryRun : Bool) : Job Watch :=
      ⟨Watch.observer, { options with dryRun }, none, fun _ => false⟩
    let dry := (job true).run w [bytes "a.js"] false
    let real := (job false).run w [bytes "a.js"] false
    [bytes "a.js"].flatMap (options.expansion w.disk) = [bytes "a.js"] ∧
      dry.results = [⟨bytes "a.js", .wouldUpdate, text, bytes "x = 'a';\n"⟩] ∧ dry.failure = none ∧
      real.results = [] ∧
      real.failure = some (.within (bytes "write a.js")
        (.os ⟨"open", bytes "a.js", .accessDenied⟩)) ∧
      Encoding.utf8.encode (bytes "x = 'a';\n") = .ok (bytes "x = 'a';\n") := by
  decide +kernel

end Restyler
