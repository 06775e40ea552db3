import Restyler.Proofs.DryRun

/-!
# A run as a list of moves

What a run sets out to do is settled by the disk that it starts from: a list of moves, the same
whatever is written meanwhile. The run makes them in order until one fails. What a move does to the
run is said once: it does nothing, it fails, or it finishes a file, which is then reported. The
reporter has no part in it up to there.
-/

namespace Restyler

/-- What a run does at a time. -/
inductive Act where
  /-- Takes an argument that is a file. -/
  | take (path : Bytes)
  /-- Fails at an argument that is not there. -/
  | miss (path : Bytes) (e : Errno)
  /-- Makes a visit of the walk from an argument that is a directory. -/
  | visit (v : Visit)

def Act.path? : Act → Option Bytes
  | .take p | .miss p _ => some p
  | .visit v => v.path?

/-- An act and the argument that it is for. -/
structure Move where
  argument : Bytes
  act : Act

namespace Options

/-- What a run does for an argument. -/
def acts (options : Options) (d : Disk) (path : Bytes) : List Act :=
  match d.resolve path with
  | .error e => [.miss path e]
  | .ok (.free ..) => [.miss path .noEntry]
  | .ok (.found _ (.file ..)) => [.take path]
  | .ok (.found l (.dir mode)) =>
    (Walk.visits d.tree l mode path options.selected).map .visit
  | .ok (.removed ..) => (Walk.visitsOfRemoved path).map .visit

def moves (options : Options) (d : Disk) (paths : List Bytes) : List Move :=
  paths.flatMap fun path => (options.acts d path).map (⟨path, ·⟩)

end Options

/-- The run after it has reported an outcome and got a reply. -/
def Run.answered {σ : Type} (r : Run σ) (o : Outcome) (reply : Reply) : Run σ :=
  { r with
    reported := r.reported ++ [o]
    canceled := r.canceled || reply.cancels
    failure := reply.stops.or r.failure }

namespace Job

variable {σ : Type}

def act (job : Job σ) (r : Run σ) : Act → Run σ
  | .take path => job.process r path
  | .miss path e => r.fail (.os ⟨"stat", path, e⟩)
  | .visit v => job.visit r v

def tell (job : Job σ) (r : Run σ) (argument : Bytes) : Run σ :=
  match r.failure with
  | none => r
  | some f => r.note job.observer (.runFailed argument f r.results.length)

/-- One move; none is made after a failure. -/
def move (job : Job σ) (r : Run σ) (m : Move) : Run σ :=
  if r.failure.isSome then r else job.tell (job.act r m.act) m.argument

def start (job : Job σ) (w : World σ) : Run σ :=
  ⟨job.observer .runStarted w, [], [], [], false, none, 0, none⟩

/-- The run before its first move and after each of them. -/
def states (job : Job σ) (w : World σ) (paths : List Bytes) : List (Run σ) :=
  (job.options.moves w.disk paths).scanl job.move (job.start w)

variable {job : Job σ} {place? : σ → Option Location} {r : Run σ}

-- --------------------------------------------------------------------
-- The moves of a run

theorem visit_of_failed (hr : r.failure.isSome = true) (v : Visit) : job.visit r v = r := by
  rw [visit.eq_def, if_pos (by simp [hr])]

theorem move_of_failed (hr : r.failure.isSome = true) (m : Move) : job.move r m = r := by
  rw [move, if_pos hr]

theorem tell_of_none (hr : r.failure = none) (path : Bytes) : job.tell r path = r := by
  rw [tell, hr]

theorem move_eq (hr : r.failure = none) (m : Move) :
    job.move r m = job.tell (job.act r m.act) m.argument := by
  rw [move, if_neg (by simp [hr])]

/-- Telling of a failure changes the world only, and this only where the observer writes. -/
theorem tell_eq (hobs : job.observer.KeepsTo place?) (r : Run σ) (path : Bytes) :
    ∃ w, job.tell r path = { r with world := w } ∧ World.Aside place? r.world w := by
  unfold tell
  split
  · exact ⟨r.world, rfl, .refl _⟩
  · exact ⟨_, rfl, hobs _ _⟩

theorem foldl_of_fixed {α : Type} {f : Run σ → α → Run σ} (hf : ∀ x, f r x = r) (xs : List α) :
    xs.foldl f r = r :=
  List.foldlRecOn (motive := (· = r)) xs f rfl fun _ hs x _ => hs ▸ hf x

/-- A failure ends a walk, so it may as well be told of at once. -/
theorem tell_foldl_visit (hobs : job.observer.KeepsTo place?) (hr : r.failure = none) (path : Bytes)
    (vs : List Visit) :
    job.tell (vs.foldl job.visit r) path =
      (vs.map fun v => (⟨path, .visit v⟩ : Move)).foldl job.move r := by
  induction vs generalizing r with
  | nil => exact tell_of_none hr path
  | cons v vs ih =>
    rw [List.foldl_cons, List.map_cons, List.foldl_cons, move_eq hr, act]
    cases hv : (job.visit r v).failure with
    | none => rw [ih hv, tell_of_none hv]
    | some f =>
      obtain ⟨w, htell, -⟩ := tell_eq hobs (job.visit r v) path
      rw [foldl_of_fixed (visit_of_failed (by simp [hv])), htell]
      exact (foldl_of_fixed (move_of_failed (by simp [hv])) _).symm

theorem argument_eq_foldl {places : Location → Prop} {d : Disk}
    (hobs : job.observer.KeepsTo place?) (h : Disk.Within places d r.world.disk) (path : Bytes) :
    job.argument r path = ((job.options.acts d path).map (⟨path, ·⟩)).foldl job.move r := by
  cases hr : r.failure with
  | some f =>
    rw [foldl_of_fixed (move_of_failed (by simp [hr])), argument, if_pos (by simp [hr])]
  | none =>
    have htold : job.argument r path = job.tell (job.expand r path) path := by
      rw [argument, if_neg (by simp [hr])]
      rfl
    rw [htold, expand_eq job h, Options.acts]
    cases d.resolve path with
    | error e => exact (move_eq hr ⟨path, .miss path e⟩).symm
    | ok target =>
      cases target with
      | free => exact (move_eq hr ⟨path, .miss path .noEntry⟩).symm
      | removed =>
        rw [tell_foldl_visit hobs hr, List.map_map]
        rfl
      | found l node =>
        cases node with
        | file => exact (move_eq hr ⟨path, .take path⟩).symm
        | dir mode =>
          rw [tell_foldl_visit hobs hr, List.map_map]
          rfl

/-- A run makes the moves that the disk calls for at its start. Writing a file neither adds a move
nor takes one away. -/
theorem run_eq (hobs : job.observer.KeepsTo place?) (w : World σ) (paths : List Bytes) :
    job.run w paths false =
      job.conclude ((job.options.moves w.disk paths).foldl job.move (job.start w)) := by
  have hfold (r : Run σ) (hr : job.Balanced place? w r) :
      paths.foldl job.argument r = (job.options.moves w.disk paths).foldl job.move r := by
    -- Files may have been written by the time of an argument: that the run is balanced says that
    -- the disk still has its form, so the argument calls for the same moves as at the start.
    rw [Options.moves]
    induction paths generalizing r with
    | nil => rfl
    | cons path paths ih =>
      rw [List.foldl_cons, List.flatMap_cons, List.foldl_append,
        ← argument_eq_foldl hobs hr.account.somewhere, ih _ (argument_balanced hobs path hr)]
  rw [run, if_neg (by simp)]
  exact congrArg job.conclude (hfold _ (Accounted.aside (.refl w) (hobs .runStarted w)))

theorem conclude_eq (hobs : job.observer.KeepsTo place?) (r : Run σ) :
    ∃ w f?, job.conclude r = { r with world := w, failure := f? } ∧
      World.Aside place? r.world w := by
  unfold conclude
  split
  · exact ⟨r.world, r.failure, rfl, .refl _⟩
  simp only
  split
  · exact ⟨_, _, rfl, hobs _ _⟩
  · exact ⟨_, _, rfl, hobs _ _⟩

-- --------------------------------------------------------------------
-- What a move can do

def withReporter (job : Job σ) (reporter : Option (Nat → Outcome → Reply)) : Job σ :=
  { job with reporter }

/-- What an act comes to before anything is reported: nothing, a failure, or an outcome that is to
be reported next. -/
inductive Attempt (place? : σ → Option Location) (r : Run σ) (a : Act) :
    Run σ → Option Outcome → Prop
  | idle {r' : Run σ} (hworld : r'.world = r.world) (hresults : r'.results = r.results)
      (hreported : r'.reported = r.reported) (hseen : r'.seen = r.seen)
      (hcanceled : r.canceled = true → r'.canceled = true) (hfailure : r'.failure = none)
      (hskipped : r.skipped = none → r'.skipped = none)
      (hpath : r.skipped = none → ∀ p ∈ a.path?, p ∈ r.seen) : Attempt place? r a r' none
  | failed {r' : Run σ} {f : Failure} (hworld : World.Aside place? r.world r'.world)
      (hresults : r'.results = r.results) (hreported : r'.reported = r.reported)
      (hfailure : r'.failure = some f) (hf : f.OfFile) : Attempt place? r a r' none
  | finished {r' : Run σ} {o : Outcome} (hcalm : r.canceled = false)
      (hpath : a.path? = some o.path) (hnew : o.path ∉ r.seen)
      (hplace : place? r'.world.watch = place? r.world.watch)
      (hresults : r'.results = r.results ++ [o]) (hreported : r'.reported = r.reported)
      (hseen : r'.seen = o.path :: r.seen) (hfailure : r'.failure = none)
      (hskipped : r'.skipped = none) : Attempt place? r a r' (some o)

theorem Attempt.of_fail {a : Act} {s : Run σ} {f : Failure}
    (hworld : World.Aside place? r.world s.world) (hresults : s.results = r.results)
    (hreported : s.reported = r.reported) (hf : f.OfFile) :
    Attempt place? r a (s.fail f) none :=
  .failed hworld hresults hreported rfl hf

/-- A visit looks whether the run is cancelled, and then takes its file. -/
theorem Attempt.of_look {r' : Run σ} {o? : Option Outcome} {names : List Bytes} {p : Bytes}
    (h : Attempt place? (job.look r) (.take p) r' o?) :
    Attempt place? r (.visit (.file names p)) r' o? := by
  cases h with
  | idle hworld hresults hreported hseen hcanceled hfailure hskipped hpath =>
    exact .idle hworld hresults hreported hseen (fun hr => hcanceled (by simp [look, hr])) hfailure
      (fun _ => hskipped rfl) (fun _ => hpath rfl)
  | failed hworld hresults hreported hfailure hf =>
    exact .failed hworld hresults hreported hfailure hf
  | finished hcalm hpath hnew hplace hresults hreported hseen hfailure hskipped =>
    exact .finished (Bool.or_eq_false_iff.mp hcalm).1 hpath hnew hplace hresults hreported hseen
      hfailure hskipped

/-- What an act comes to before a report is no request to leave something out. -/
theorem Attempt.caught_of_none {a : Act} {r' : Run σ} (h : Attempt place? r a r' none)
    (names : List Bytes) : r'.caught names = r' := by
  cases h with
  | idle _ _ _ _ _ hfailure => exact Job.caught_of_none hfailure names
  | failed _ _ _ hfailure hf => exact caught_of_failed hfailure hf.2 names

/-- Notes that a path has been met, and looks whether the run is cancelled. -/
def meet (job : Job σ) (r : Run σ) (p : Bytes) : Run σ := job.look { r with seen := p :: r.seen }

theorem process_of_new (job : Job σ) {p : Bytes} (hp : p ∉ r.seen) :
    job.process r p =
      if (job.meet r p).canceled then (job.meet r p).fail .canceled
      else match job.restyle r.world p with
        | (w, .error f) => ({ job.meet r p with world := w }).fail f
        | (w, .ok o) =>
          job.report { job.meet r p with world := w, results := r.results ++ [o] } o := by
  rw [process, if_neg (by simpa using hp)]
  rfl

theorem process_of_error (job : Job σ) {p : Bytes} {w : World σ} {f : Failure} (hp : p ∉ r.seen)
    (hgo : (job.meet r p).canceled = false) (hrestyle : job.restyle r.world p = (w, .error f)) :
    job.process r p = ({ job.meet r p with world := w }).fail f := by
  simp [job.process_of_new hp, hgo, hrestyle]

theorem process_of_ok (job : Job σ) {p : Bytes} {w : World σ} {o : Outcome} (hp : p ∉ r.seen)
    (hgo : (job.meet r p).canceled = false) (hrestyle : job.restyle r.world p = (w, .ok o)) :
    job.process r p =
      job.report { job.meet r p with world := w, results := r.results ++ [o] } o := by
  simp [job.process_of_new hp, hgo, hrestyle]

theorem visit_of_skips (job : Job σ) {v : Visit} (hv : r.skips v.names = true) :
    job.visit r v = r := by
  rw [visit.eq_def, if_pos (by simp [hv])]

theorem visit_of_none (job : Job σ) (hr : r.failure = none) (v : Visit) :
    r.skips v.names = false → job.visit r v =
      match v with
      | .refused _ e => r.fail (.os e)
      | .pass _ => if (job.look r).canceled then (job.look r).fail .canceled else job.look r
      | .file names path =>
        if (job.look r).canceled then (job.look r).fail .canceled
        else (job.process (job.look r) path).caught names := by
  intro hv
  exact (visit.eq_def job r v).trans (if_neg (by simp [hr, hv]))

theorem skips_of_none (hr : r.skipped = none) (names : List Bytes) : r.skips names = false := by
  rw [Run.skips, hr, Option.any_none]

/-- The run after what has come of an act. A walk understands a request to leave something out. -/
def settle (r : Run σ) : Act → Run σ
  | .visit v => r.caught v.names
  | .take _ | .miss .. => r

theorem settle_eq (r : Run σ) (a : Act) :
    ∃ failure skipped, settle r a = { r with failure, skipped } := by
  cases a with
  | take | miss => exact ⟨r.failure, r.skipped, rfl⟩
  | visit v =>
    rw [settle, Run.caught]
    split
    · exact ⟨none, some _, rfl⟩
    · exact ⟨r.failure, r.skipped, rfl⟩

theorem settle_of_none (hr : r.failure = none) (a : Act) : settle r a = r := by
  cases a with
  | take | miss => rfl
  | visit v => exact caught_of_none hr v.names

theorem settle_of_failed {f : Failure} (hr : r.failure = some f) (hf : f.asksToSkip = false)
    (a : Act) : settle r a = r := by
  cases a with
  | take | miss => rfl
  | visit v => exact caught_of_failed hr hf v.names

def reportAny (job : Job σ) (r : Run σ) (a : Act) : Option Outcome → Run σ
  | none => r
  | some o => settle (job.report r o) a

section
variable (hobs : job.observer.KeepsTo place?) (hr : r.failure = none)
include hobs hr

theorem process_attempt (p : Bytes) :
    ∃ r' o?, Attempt place? r (.take p) r' o? ∧
      ∀ reporter, (job.withReporter reporter).process r p =
        (job.withReporter reporter).reportAny r' (.take p) o? := by
  by_cases hp : p ∈ r.seen
  · refine ⟨r, none, .idle rfl rfl rfl rfl id hr id fun _ => ?_, fun reporter => ?_⟩
    · rintro _ ⟨⟩
      exact hp
    · rw [process_of_seen _ hp, reportAny]
  cases hc : (job.meet r p).canceled with
  | true =>
    exact ⟨(job.meet r p).fail .canceled, none, .of_fail (.refl _) rfl rfl .canceled,
      fun reporter => ((job.withReporter reporter).process_of_new hp).trans (if_pos hc)⟩
  | false =>
    have hcalm : r.canceled = false := (Bool.or_eq_false_iff.mp hc).1
    rcases hrestyle : job.restyle r.world p with ⟨w, f | o⟩
    · have haside : World.Aside place? r.world w := restyle_error hobs hrestyle
      refine ⟨({ job.meet r p with world := w }).fail f, none,
        .failed haside rfl rfl rfl (restyle_concerns hrestyle), fun reporter => ?_⟩
      exact (job.withReporter reporter).process_of_error hp hc hrestyle
    · obtain ⟨l, -, -, heffect, -⟩ := restyle_ok hobs hrestyle
      obtain rfl : o.path = p := restyle_concerns hrestyle
      refine ⟨{ job.meet r o.path with world := w, results := r.results ++ [o] }, some o,
        .finished hcalm rfl hp heffect.place rfl rfl rfl hr rfl, fun reporter => ?_⟩
      exact (job.withReporter reporter).process_of_ok hp hc hrestyle

theorem visit_attempt (v : Visit) :
    ∃ r' o?, Attempt place? r (.visit v) r' o? ∧
      ∀ reporter, (job.withReporter reporter).visit r v =
        (job.withReporter reporter).reportAny r' (.visit v) o? := by
  cases hv : r.skips v.names with
  | true =>
    refine ⟨r, none, .idle rfl rfl rfl rfl id hr id fun hnone => ?_,
      fun reporter => (job.withReporter reporter).visit_of_skips hv⟩
    rw [skips_of_none hnone] at hv
    cases hv
  | false =>
  have hvisit (reporter) := (job.withReporter reporter).visit_of_none hr v hv
  cases v with
  | refused names e =>
    exact ⟨r.fail (.os e), none, .of_fail (.refl _) rfl rfl (.os _), hvisit⟩
  | pass names =>
    cases hc : (job.look r).canceled with
    | true =>
      refine ⟨(job.look r).fail .canceled, none, .of_fail (.refl _) rfl rfl .canceled,
        fun reporter => (hvisit reporter).trans (if_pos hc)⟩
    | false =>
      have hgo : ¬ (job.look r).canceled = true := by simp [hc]
      refine ⟨job.look r, none, .idle rfl rfl rfl rfl (fun hr => by simp [look, hr]) hr
        (fun _ => rfl) (fun _ => by simp [Act.path?, Visit.path?]), fun reporter => ?_⟩
      exact (hvisit reporter).trans (if_neg hgo)
  | file names path =>
    cases hc : (job.look r).canceled with
    | true =>
      exact ⟨(job.look r).fail .canceled, none, .of_fail (.refl _) rfl rfl .canceled,
        fun reporter => (hvisit reporter).trans (if_pos hc)⟩
    | false =>
      have hgo : ¬ (job.look r).canceled = true := by simp [hc]
      obtain ⟨r', o?, h, hprocess⟩ := process_attempt hobs (r := job.look r) hr path
      refine ⟨r', o?, h.of_look, fun reporter => ?_⟩
      refine ((hvisit reporter).trans (if_neg hgo)).trans ?_
      have hprocess' : (job.withReporter reporter).process
          ((job.withReporter reporter).look r) path = _ := hprocess reporter
      rw [hprocess']
      cases o? with
      | none => exact h.caught_of_none names
      | some o => rfl

/-- What a move does, whatever the reporter. -/
theorem move_attempt (m : Move) :
    ∃ r' o?, Attempt place? r m.act r' o? ∧
      ∀ reporter, (job.withReporter reporter).move r m =
        job.tell ((job.withReporter reporter).reportAny r' m.act o?) m.argument := by
  have hact : ∃ r' o?, Attempt place? r m.act r' o? ∧
      ∀ reporter, (job.withReporter reporter).act r m.act =
        (job.withReporter reporter).reportAny r' m.act o? := by
    cases m.act with
    | take p => exact process_attempt hobs hr p
    | miss p e =>
      exact ⟨r.fail (.os ⟨"stat", p, e⟩), none, .of_fail (.refl _) rfl rfl (.os _),
        fun _ => rfl⟩
    | visit v => exact visit_attempt hobs hr v
  obtain ⟨r', o?, h, heq⟩ := hact
  refine ⟨r', o?, h, fun reporter => ?_⟩
  rw [move_eq hr, heq]
  rfl

end

/-- A move is made before a failure only. The observer has the last word in it. -/
theorem move_cases (hobs : job.observer.KeepsTo place?) (r : Run σ) (m : Move) :
    (r.failure.isSome = true ∧ job.move r m = r) ∨
      r.failure = none ∧ ∃ r' o? w, Attempt place? r m.act r' o? ∧
        job.move r m = { job.reportAny r' m.act o? with world := w } ∧
        World.Aside place? (job.reportAny r' m.act o?).world w := by
  cases hr : r.failure with
  | some f => exact .inl ⟨rfl, move_of_failed (by simp [hr]) m⟩
  | none =>
    obtain ⟨r', o?, hattempt, hmove⟩ := move_attempt hobs hr m
    have heq : job.move r m = job.tell (job.reportAny r' m.act o?) m.argument :=
      hmove job.reporter
    obtain ⟨w, htell, hworld⟩ := tell_eq hobs (job.reportAny r' m.act o?) m.argument
    exact .inr ⟨rfl, r', o?, w, hattempt, heq.trans htell, hworld⟩

-- --------------------------------------------------------------------
-- Reports

theorem report_of_none (hreporter : job.reporter = none) (r : Run σ) (o : Outcome) :
    job.report r o = r := by
  rw [report, hreporter]

theorem report_of_some {answer : Nat → Outcome → Reply} (hreporter : job.reporter = some answer)
    (r : Run σ) (o : Outcome) :
    job.report r o = r.answered o (answer (r.reported.length + 1) o) := by
  have hlength : (r.reported ++ [o]).length = r.reported.length + 1 := by simp
  unfold report Run.answered
  rw [hreporter]
  simp only [hlength]
  generalize answer (r.reported.length + 1) o = reply
  cases reply.stops with
  | none => rfl
  | some f => rfl

/-- A report concerns what was reported and how the run goes on. -/
theorem report_eq_answered (r : Run σ) (o : Outcome) :
    ∃ reported canceled failure, job.report r o = { r with reported, canceled, failure } ∧
      r.reported <+: reported := by
  cases hreporter : job.reporter with
  | none =>
    rw [report_of_none hreporter]
    exact ⟨r.reported, r.canceled, r.failure, rfl, List.prefix_rfl⟩
  | some answer =>
    rw [report_of_some hreporter]
    exact ⟨_, _, _, rfl, List.prefix_append _ _⟩

theorem report_world (r : Run σ) (o : Outcome) : (job.report r o).world = r.world := by
  obtain ⟨reported, canceled, failure, hreport, -⟩ := job.report_eq_answered r o
  rw [hreport]

/-- What a walk makes of the reply concerns how the run goes on as well. -/
theorem settle_report_eq (r : Run σ) (o : Outcome) (a : Act) :
    ∃ reported canceled failure skipped,
      settle (job.report r o) a = { r with reported, canceled, failure, skipped } ∧
        r.reported <+: reported := by
  obtain ⟨reported, canceled, failure, hreport, hprefix⟩ := job.report_eq_answered r o
  obtain ⟨failure', skipped, hsettle⟩ := settle_eq (job.report r o) a
  rw [hsettle, hreport]
  exact ⟨reported, canceled, failure', skipped, rfl, hprefix⟩

end Job

end Restyler
