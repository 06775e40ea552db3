import Restyler.Proofs.Moves

/-!
# Which files a run takes

A run takes what its arguments stand for, in order, and each path the first time only: an argument
that is a directory stands for the files that its walk selects, any other for itself. A run that
fails has taken an initial part of that and leaves the rest alone. All this is so unless a report
asks a walk to leave something out: then files are missing from the middle, and no failure says so.
-/

namespace Restyler

-- --------------------------------------------------------------------
-- What arguments stand for

namespace Walk

/-- The path of a node below a directory, if it is a file that a walk selects. -/
def select? (root : Bytes) (extensions : List Bytes) : List Bytes × Node → Option Bytes
  | (names, node) =>
    let path := pathBelow root names
    if node.isDir = false ∧ names.dropLast.all (!isSkipped ·) ∧
      Path.extension path ∈ extensions then some path else none

/-- The files that a walk selects, by their paths and in order. -/
def selected (t : Tree) (l : Location) (root : Bytes) (extensions : List Bytes) : List Bytes :=
  (nodesBelow t l).filterMap (select? root extensions)

theorem listing_path? (names : List Bytes) (path : Bytes) (permitted : Bool) :
    (listing names path permitted).filterMap Visit.path? = [] := by
  unfold listing
  split
  · rfl
  · rfl

theorem filterMap_path?_visitsOf (root : Bytes) (extensions names : List Bytes) (node : Node)
    (reached : Bool) :
    (visitsOf root extensions names node reached).filterMap Visit.path? =
      (select? root extensions (names, node)).toList := by
  have hall : names.dropLast.all (!isSkipped ·) = !names.dropLast.any isSkipped := by
    rw [List.not_any_eq_all_not]
  unfold visitsOf select?
  simp only [hall]
  cases names.dropLast.any isSkipped with
  | true => simp
  | false =>
    cases node with
    | file m c => by_cases he : Path.extension (pathBelow root names) ∈ extensions <;>
        simp [he, Node.isDir, Visit.path?]
    | dir m =>
      cases names.getLast?.any isSkipped with
      | true => simp [Node.isDir, Visit.path?]
      | false =>
        simp only [if_neg, Bool.false_eq_true, not_false_eq_true, Node.isDir]
        rw [List.filterMap_cons_none rfl, listing_path?]
        rfl

theorem filterMap_path?_visits (t : Tree) (l : Location) (mode : Mode) (root : Bytes)
    (extensions : List Bytes) :
    (visits t l mode root extensions).filterMap Visit.path? = selected t l root extensions := by
  rw [visits_eq, List.filterMap_append, List.filterMap_cons_none rfl, listing_path?,
    List.nil_append, List.filterMap_flatMap, selected, List.filterMap_eq_flatMap_toList]
  simp only [filterMap_path?_visitsOf]

end Walk

namespace Options

/-- The paths that an argument stands for. -/
def selection (options : Options) (d : Disk) (path : Bytes) : List Bytes :=
  match d.resolve path with
  | .ok (.found l (.dir _)) => Walk.selected d.tree l path options.selected
  | .ok (.removed ..) => []
  | _ => [path]

theorem filterMap_path?_acts (options : Options) (d : Disk) (path : Bytes) :
    (options.acts d path).filterMap Act.path? = options.selection d path := by
  unfold acts selection
  match d.resolve path with
  | .error _ | .ok (.free ..) | .ok (.found _ (.file ..)) | .ok (.removed ..) => rfl
  | .ok (.found l (.dir mode)) =>
    simp only [List.filterMap_map]
    exact Walk.filterMap_path?_visits _ _ mode _ _

theorem filterMap_path?_moves (options : Options) (d : Disk) (paths : List Bytes) :
    (options.moves d paths).filterMap (·.act.path?) = paths.flatMap (options.selection d) := by
  rw [moves, List.filterMap_flatMap]
  congr 1
  funext path
  rw [List.filterMap_map]
  exact filterMap_path?_acts options d path

end Options

-- --------------------------------------------------------------------
-- How far a run has come

theorem eraseDups_concat {l : List Bytes} {p : Bytes} :
    (l ++ [p]).eraseDups = if p ∈ l then l.eraseDups else l.eraseDups ++ [p] := by
  rw [List.eraseDups_append]
  split
  · next hp => simp [List.removeAll, hp]
  · next hp => simp [List.removeAll, hp, List.eraseDups_cons]

theorem eraseDups_isPrefix (l l' : List Bytes) : l.eraseDups <+: (l ++ l').eraseDups := by
  rw [List.eraseDups_append]
  exact List.prefix_append _ _

/-- A run that has found no files to take. A reporter may say so too, but only of a result. -/
def Run.FoundNone {σ : Type} (r : Run σ) : Prop := r.failure = some .noFiles ∧ r.results = []

/-- The results of a run so far are for paths that its moves were about, each for another one. -/
structure Run.Taken {σ : Type} (ps : List Bytes) (r : Run σ) : Prop where
  nodup : (r.results.map Outcome.path).Nodup
  among : ∀ o ∈ r.results, o.path ∈ ps
  met : r.failure = none → ∀ o ∈ r.results, o.path ∈ r.seen
  failed : ¬ r.FoundNone

/-- How far a run has come with the paths that its moves were about: it has finished all of them, or
failed after some. -/
inductive Run.Progress {σ : Type} (ps : List Bytes) (r : Run σ) : Prop
  | underway (hfailure : r.failure = none) (hskipped : r.skipped = none)
      (hseen : r.seen.reverse = ps.eraseDups) (hresults : r.results.map Outcome.path = ps.eraseDups)
  | failed (hfailure : r.failure.isSome = true)
      (hresults : r.results.map Outcome.path <+: ps.eraseDups)

namespace Job

variable {σ : Type} {job : Job σ} {place? : σ → Option Location} {r : Run σ} {ps : List Bytes}

/-- No report asks a walk to leave something out. -/
def SkipsNothing (job : Job σ) : Prop :=
  ∀ answer ∈ job.reporter, ∀ n o, ∀ f ∈ (answer n o).stops, f.asksToSkip = false

section
variable {P : List Bytes → Run σ → Prop}
  (hmove : ∀ ps r, P ps r → ∀ m : Move, P (ps ++ m.act.path?.toList) (job.move r m))
include hmove

/-- What holds of a run and of the paths that its moves were about, if every move keeps it, holds
behind all of them. -/
theorem foldl_move_along (hr : P ps r) (ms : List Move) :
    P (ps ++ ms.filterMap (·.act.path?)) (ms.foldl job.move r) := by
  induction ms generalizing r ps with
  | nil => simpa using hr
  | cons m ms ih =>
    have hms := ih (hmove ps r hr m)
    cases hp : m.act.path? with
    | none => simpa [hp] using hms
    | some p => simpa [hp] using hms

theorem foldl_moves_along {w : World σ} (hstart : P [] (job.start w)) (paths : List Bytes) :
    P (paths.flatMap (job.options.selection w.disk))
      ((job.options.moves w.disk paths).foldl job.move (job.start w)) := by
  rw [← Options.filterMap_path?_moves]
  exact foldl_move_along hmove hstart (job.options.moves w.disk paths)

end

theorem taken_of_results {r' : Run σ} (hr : r.Taken ps) (hresults : r'.results = r.results)
    (hmet : r'.failure = none → r.failure = none ∧ r'.seen = r.seen) (hnew : ¬ r'.FoundNone)
    (ps' : List Bytes) : r'.Taken (ps ++ ps') where
  nodup := hresults ▸ hr.nodup
  among o ho := List.mem_append_left ps' (hr.among o (hresults ▸ ho))
  met hnone o ho := by
    obtain ⟨hnone, hseen⟩ := hmet hnone
    exact hseen ▸ hr.met hnone o (hresults ▸ ho)
  failed := hnew

theorem taken_of_finished {r' : Run σ} {o : Outcome} {a : Act} (hr : r.Taken ps)
    (hnone : r.failure = none) (hpath : a.path? = some o.path) (hnew : o.path ∉ r.seen)
    (hresults : r'.results = r.results ++ [o]) (hseen : r'.seen = o.path :: r.seen) :
    r'.Taken (ps ++ a.path?.toList) where
  nodup := by
    rw [hresults, List.map_append, List.map_singleton, ← List.concat_eq_append]
    refine hr.nodup.concat fun hmem => hnew ?_
    obtain ⟨o', ho', heq⟩ := List.mem_map.mp hmem
    exact heq ▸ hr.met hnone o' ho'
  among := by
    rw [hresults, hpath]
    refine List.forall_mem_append.mpr ⟨fun o ho => List.mem_append_left _ (hr.among o ho), ?_⟩
    simp
  met _ := by
    rw [hresults, hseen]
    refine List.forall_mem_append.mpr ⟨fun o ho => List.mem_cons_of_mem _ (hr.met hnone o ho), ?_⟩
    simp
  failed h := absurd (hresults.symm.trans h.2) (by simp)

theorem taken_of_world (hr : r.Taken ps) (w : World σ) : ({ r with world := w } : Run σ).Taken ps :=
  ⟨hr.nodup, hr.among, hr.met, hr.failed⟩

section
variable (hobs : job.observer.KeepsTo place?)
include hobs

theorem move_taken (hr : r.Taken ps) (m : Move) :
    (job.move r m).Taken (ps ++ m.act.path?.toList) := by
  rcases move_cases hobs r m with ⟨hfailed, hmove⟩ | ⟨hnone, r', o?, w, hattempt, hmove, -⟩
  · rw [hmove]
    exact taken_of_results hr rfl (fun hnone => by simp [hnone] at hfailed) hr.failed _
  rw [hmove]
  apply taken_of_world
  cases hattempt with
  | idle hworld hresults hreported hseen hcanceled hfailure =>
    refine taken_of_results hr hresults (fun _ => ⟨hnone, hseen⟩) (fun h => ?_) _
    exact absurd (hfailure.symm.trans h.1) nofun
  | failed hworld hresults hreported hfailure hf =>
    refine taken_of_results hr hresults (fun h => ?_) (fun h => ?_) _
    · exact absurd (hfailure.symm.trans h) nofun
    · exact hf.1 (Option.some.inj (hfailure.symm.trans h.1))
  | @finished o hcalm hpath hnew hplace hresults hreported hseen =>
    -- A reply to the report may end the run, or not, but it takes no result back.
    obtain ⟨reported, canceled, failure, skipped, hsettle, -⟩ :=
      job.settle_report_eq r' o m.act
    rw [reportAny, hsettle]
    exact taken_of_finished hr hnone hpath hnew hresults hseen

/-- Before its end a run has not found no files. -/
theorem foldl_moves_taken (w : World σ) (paths : List Bytes) :
    ((job.options.moves w.disk paths).foldl job.move (job.start w)).Taken
      (paths.flatMap (job.options.selection w.disk)) := by
  have hstart : (job.start w).Taken [] :=
    ⟨List.nodup_nil, nofun, fun _ => nofun, fun h => nomatch h.1⟩
  exact foldl_moves_along (P := fun ps r => r.Taken ps) (fun _ _ hr m => move_taken hobs hr m)
    hstart paths

/-- No path is taken twice, and none but those that the arguments stand for. -/
theorem run_taken (w : World σ) (paths : List Bytes) :
    let r := job.run w paths false
    (r.results.map Outcome.path).Nodup ∧
      ∀ o ∈ r.results, o.path ∈ paths.flatMap (job.options.selection w.disk) := by
  intro r
  have hend := foldl_moves_taken hobs w paths
  have hr : r = _ := run_eq hobs w paths
  rw [hr, conclude_results]
  exact ⟨hend.nodup, hend.among⟩

end

/-- What is done to the world does not count. -/
theorem progress_of_world (hr : r.Progress ps) (w : World σ) :
    ({ r with world := w } : Run σ).Progress ps := by
  cases hr with
  | underway hfailure hskipped hseen hresults => exact .underway hfailure hskipped hseen hresults
  | failed hfailure hresults => exact .failed hfailure hresults

theorem Attempt.progress {a : Act} {r' : Run σ} {o? : Option Outcome}
    (h : Attempt place? r a r' o?) (hskipped : r.skipped = none)
    (hseen : r.seen.reverse = ps.eraseDups)
    (hresults : r.results.map Outcome.path = ps.eraseDups) :
    r'.Progress (ps ++ a.path?.toList) := by
  -- Every path so far was met, also one whose file was taken by an earlier move.
  have hmem (p : Bytes) : p ∈ r.seen ↔ p ∈ ps := by
    rw [← List.mem_reverse, hseen, List.mem_eraseDups]
  cases h with
  | idle hworld hresults' hreported hseen' hcanceled hfailure hskipped' hpath =>
    have hps : (ps ++ a.path?.toList).eraseDups = ps.eraseDups := by
      cases hp : a.path? with
      | none => simp
      | some p =>
        rw [Option.toList_some, eraseDups_concat, if_pos ((hmem p).mp (hpath hskipped p hp))]
    exact .underway hfailure (hskipped' hskipped) (by rw [hseen', hseen, hps])
      (by rw [hresults', hresults, hps])
  | failed hworld hresults' hreported hfailure hf =>
    refine .failed (by simp [hfailure]) ?_
    rw [hresults', hresults]
    exact eraseDups_isPrefix _ _
  | @finished o hcalm hpath hnew hplace hresults' hreported hseen' hfailure hskipped' =>
    have hps : (ps ++ a.path?.toList).eraseDups = ps.eraseDups ++ [o.path] := by
      rw [hpath, Option.toList_some, eraseDups_concat, if_neg (mt (hmem o.path).mpr hnew)]
    refine .underway hfailure hskipped' ?_ ?_
    · rw [hseen', List.reverse_cons, hseen, hps]
    · rw [hresults', List.map_append, hresults, hps]
      rfl

section
variable (hkeeps : job.SkipsNothing)
include hkeeps

theorem report_progress (hr : r.Progress ps) (hnone : r.failure = none) (o : Outcome) (a : Act) :
    (settle (job.report r o) a).Progress ps := by
  cases hreporter : job.reporter with
  | none =>
    rw [report_of_none hreporter, settle_of_none hnone]
    exact hr
  | some answer =>
    have hanswer := hkeeps answer hreporter (r.reported.length + 1) o
    rw [report_of_some hreporter]
    generalize answer (r.reported.length + 1) o = reply at hanswer
    cases hr with
    | failed hfailure => simp [hnone] at hfailure
    | underway hfailure hskipped hseen hresults =>
    cases hstops : reply.stops with
    | none =>
      have hkept : (r.answered o reply).failure = none := by
        simp [Run.answered, hstops, hfailure]
      rw [settle_of_none hkept]
      exact .underway hkept hskipped hseen hresults
    | some f =>
      have hfailed : (r.answered o reply).failure = some f := by simp [Run.answered, hstops]
      rw [settle_of_failed hfailed (hanswer f hstops)]
      exact .failed (by simp [hfailed]) (hresults ▸ List.prefix_rfl)

variable (hobs : job.observer.KeepsTo place?)
include hobs

theorem move_progress (hr : r.Progress ps) (m : Move) :
    (job.move r m).Progress (ps ++ m.act.path?.toList) := by
  rcases move_cases hobs r m with ⟨hfailed, hmove⟩ | ⟨hnone, r', o?, w, hattempt, hmove, -⟩
  · rw [hmove]
    cases hr with
    | underway hfailure => simp [hfailure] at hfailed
    | failed hfailure hresults =>
      exact .failed hfailure (hresults.trans (eraseDups_isPrefix _ _))
  · rw [hmove]
    apply progress_of_world
    cases hr with
    | failed hfailure => simp [hnone] at hfailure
    | underway hfailure hskipped hseen hresults =>
      have hr' := hattempt.progress hskipped hseen hresults
      cases hattempt with
      | idle | failed => exact hr'
      | finished _ _ _ _ _ _ _ hnone' => exact report_progress hkeeps hr' hnone' _ m.act

/-- What a run that does not fail has taken is what its arguments stand for; one that fails has
taken an initial part. -/
theorem run_progress (w : World σ) (paths : List Bytes) :
    let all := (paths.flatMap (job.options.selection w.disk)).eraseDups
    let r := job.run w paths false
    r.results.map Outcome.path <+: all ∧
      (r.failure = none ∨ r.FoundNone →
        r.results.map Outcome.path = all ∧ (r.FoundNone ↔ all = [])) := by
  intro all r
  have hstart : (job.start w).Progress [] := .underway rfl rfl rfl rfl
  have hend := foldl_moves_along (P := fun ps r => r.Progress ps)
    (fun _ _ hr m => move_progress hkeeps hobs hr m) hstart paths
  have htaken := foldl_moves_taken hobs w paths
  have hr : r = _ := run_eq hobs w paths
  rw [Run.FoundNone, hr, conclude_results, conclude_failure]
  cases hend with
  | underway hfailure hskipped hseen hresults =>
    refine ⟨hresults ▸ List.prefix_rfl, fun _ => ⟨hresults, ?_⟩⟩
    simp only [all, hfailure, ← hresults, true_and, List.map_eq_nil_iff]
    split <;> simp [*]
  | failed hfailure hresults =>
    have hnone := htaken.failed
    obtain ⟨f, hf⟩ := Option.isSome_iff_exists.mp hfailure
    rw [Run.FoundNone, hf] at hnone
    refine ⟨hresults, fun hdone => ?_⟩
    simp only [hf, reduceCtorEq, false_and, if_false, false_or] at hdone
    exact absurd hdone hnone

end

-- --------------------------------------------------------------------
-- What is reported

/-- If there is a reporter, it has been shown all results. -/
def Shown (job : Job σ) (r : Run σ) : Prop := job.reporter.isSome → r.reported = r.results

theorem reportAny_shown {r' : Run σ} {a : Act} {o? : Option Outcome} (hr : job.Shown r)
    (h : Attempt place? r a r' o?) : job.Shown (job.reportAny r' a o?) := by
  intro hsome
  have hshown := hr hsome
  cases h with
  | idle hworld hresults hreported => exact (hreported.trans hshown).trans hresults.symm
  | failed hworld hresults hreported => exact (hreported.trans hshown).trans hresults.symm
  | @finished o hcalm hpath hnew hplace hresults hreported =>
    obtain ⟨answer, hreporter⟩ := Option.isSome_iff_exists.mp hsome
    obtain ⟨failure, skipped, hsettle⟩ := settle_eq (job.report r' o) a
    rw [reportAny, hsettle, report_of_some hreporter]
    simp only [Run.answered, hreported, hshown, hresults]

theorem move_shown (hobs : job.observer.KeepsTo place?) (hr : job.Shown r) (m : Move) :
    job.Shown (job.move r m) := by
  rcases move_cases hobs r m with ⟨-, hmove⟩ | ⟨-, r', o?, w, hattempt, hmove, -⟩
  · rw [hmove]
    exact hr
  · rw [hmove]
    exact reportAny_shown hr hattempt

theorem run_shown (hobs : job.observer.KeepsTo place?) (w : World σ) (paths : List Bytes) :
    job.Shown (job.run w paths false) := by
  have hend : job.Shown ((job.options.moves w.disk paths).foldl job.move (job.start w)) :=
    List.foldlRecOn _ _ (fun _ => rfl) fun _ hr m _ => move_shown hobs hr m
  obtain ⟨w', f?, hconclude, -⟩ := conclude_eq hobs
    ((job.options.moves w.disk paths).foldl job.move (job.start w))
  rw [run_eq hobs, hconclude]
  exact hend

end Job

/-- A file that no outcome names is as it was. -/
theorem Account.get?_of_unnamed {options : Options} {trace : Option Location} {d e : Disk}
    {os : List Outcome} (h : Account options trace d e os) {l : Location} (hl : trace ≠ some l)
    (hos : ∀ o ∈ os, d.fileAt? o.path ≠ some l) : e.tree.get? l = d.tree.get? l := by
  have hnone : lastUpdate d l os = none := by
    rw [lastUpdate, List.getLast?_eq_none_iff, List.filter_eq_nil_iff]
    intro o ho
    simp [hos o ho]
  have hnode := h.nodes l hl
  rwa [NodeAfter, hnone] at hnode

-- --------------------------------------------------------------------
-- Traced runs

/-- A run takes what its arguments stand for, in order and each path once, and reports each file
that it has taken. It finds no files if its arguments stand for none. A run that fails has taken an
initial part, and leaves every other file alone, those that were to come as well. The reporter may
stop the run, but not ask for something to be left out. -/
theorem Watch.run_selects (options : Options) (reporter : Option (Nat → Outcome → Reply))
    (hkeeps : ∀ answer ∈ reporter, ∀ n o, ∀ f ∈ (answer n o).stops, f.asksToSkip = false)
    (interrupted : Nat → Bool) (w : World Watch) (paths : List Bytes) (canceled : Bool) :
    let job : Job Watch := ⟨Watch.observer, options, reporter, interrupted⟩
    let r := job.run w paths canceled
    let all := (paths.flatMap (options.selection w.disk)).eraseDups
    r.results.map Outcome.path <+: all ∧
      (r.failure = none ∨ r.FoundNone →
        r.results.map Outcome.path = all ∧ (r.FoundNone ↔ all = [])) ∧
      (reporter.isSome → r.reported = r.results) ∧
      ∀ l, w.watch.sink.place? ≠ some l → (∀ o ∈ r.results, w.disk.fileAt? o.path ≠ some l) →
        r.world.disk.tree.get? l = w.disk.tree.get? l := by
  intro job r all
  have hobs : job.observer.KeepsTo fun w => w.sink.place? := Watch.observer_keepsTo
  cases canceled with
  | true =>
    have hcanceled : r.failure = some .canceled := rfl
    exact ⟨List.nil_prefix, by simp [hcanceled, Run.FoundNone], fun _ => rfl, fun _ _ _ => rfl⟩
  | false =>
    have hskips : job.SkipsNothing := hkeeps
    obtain ⟨htaken, hall⟩ := Job.run_progress hskips hobs w paths
    refine ⟨htaken, hall, Job.run_shown hobs w paths, ?_⟩
    intro l hl hos
    exact (Job.run_balanced hobs w paths false).account.get?_of_unnamed hl hos

/-- A report stops the run before it comes to the third file. -/
theorem Watch.run_selects_stopped :
    let w := World.ofNodes [(bytes "a.js", .file .ofFile (bytes "\"a\"")),
      (bytes "b.js", .file .ofFile (bytes "\"b\"")), (bytes "c.js", .file .ofFile (bytes "\"c\""))]
    let options : Options := ⟨false, .utf8, .ofWidth 2, []⟩
    let stop : Nat → Outcome → Reply := fun n _ => ⟨false, if n = 2 then some .noFiles else none⟩
    let job : Job Watch := ⟨Watch.observer, options, some stop, fun _ => false⟩
    let r := job.run w [bytes "b.js", bytes "."] false
    let all := ([bytes "b.js", bytes "."].flatMap (options.selection w.disk)).eraseDups
    all = [bytes "b.js", bytes "a.js", bytes "c.js"] ∧ r.results.length = 2 ∧
      r.failure = some .noFiles ∧
      r.results.map Outcome.path <+: all ∧ r.reported = r.results ∧
      ∀ l, w.watch.sink.place? ≠ some l → (∀ o ∈ r.results, w.disk.fileAt? o.path ≠ some l) →
        r.world.disk.tree.get? l = w.disk.tree.get? l := by
  intro w options stop
  have hkeeps : ∀ answer ∈ some stop, ∀ n o, ∀ f ∈ (answer n o).stops, f.asksToSkip = false := by
    rintro _ ⟨⟩ n o f hf
    obtain ⟨-, hf⟩ := Option.ite_none_right_eq_some.mp (Option.mem_def.mp hf)
    rw [← Option.some.inj hf]
    rfl
  obtain ⟨hinitial, -, hshown, hothers⟩ := Watch.run_selects options (some stop) hkeeps
    (fun _ => false) w [bytes "b.js", bytes "."] false
  refine ⟨?_, ?_, ?_, hinitial, hshown rfl, hothers⟩
  · decide +kernel
  · decide +kernel
  · decide +kernel

/-- Where a report asks for the rest of a directory to be left out, the run goes on behind it and
does not fail. Without a reporter nothing is reported. -/
theorem Watch.run_leaves_out :
    let file : Node := .file .ofFile (bytes "\"a\"")
    let w := World.ofPlaces [([bytes "t"], .dir .ofDirectory),
      ([bytes "t", bytes "a"], .dir .ofDirectory), ([bytes "t", bytes "a", bytes "1.js"], file),
      ([bytes "t", bytes "a", bytes "2.js"], file), ([bytes "t", bytes "b.js"], file)]
    let options : Options := ⟨false, .utf8, .ofWidth 2, []⟩
    let skip : Nat → Outcome → Reply := fun n _ =>
      ⟨false, if n = 1 then some .skipDirectory else none⟩
    let run (reporter : Option (Nat → Outcome → Reply)) :=
      Job.run ⟨Watch.observer, options, reporter, fun _ => false⟩ w [bytes "t"] false
    let all := ([bytes "t"].flatMap (options.selection w.disk)).eraseDups
    all = [bytes "t/a/1.js", bytes "t/a/2.js", bytes "t/b.js"] ∧
      (run (some skip)).failure = none ∧
      (run (some skip)).results.map Outcome.path = [bytes "t/a/1.js", bytes "t/b.js"] ∧
      ¬ ((run (some skip)).results.map Outcome.path <+: all) ∧
      (run none).failure = none ∧ (run none).results.map Outcome.path = all ∧
      (run none).reported = [] := by
  decide +kernel

end Restyler
