import Restyler.Proofs.Selection

/-!
# What an observer is told

A run tells its observer that it starts, then of one file after the other, and at last how it ends.
Of a file the observer is told that it is started, what is done, and that it is finished or has
failed. This order is the same for every observer; what an observer makes of it can be read off the
notes alone, whatever happens to the disk in between.
-/

namespace Restyler

-- --------------------------------------------------------------------
-- The order of the notes

namespace Note

/-- The notes between the first and the last of a file. -/
def isInner : Note → Bool
  | .phaseStarted _ | .phaseFinished _ | .stepChanged _ => true
  | _ => false

def endsFile : Note → Bool
  | .loadFailed | .writeFailed | .fileFinished _ => true
  | _ => false

/-- What is told of a file after it has been started. -/
inductive Rest : List Note → Prop
  | last {n : Note} (hn : n.endsFile = true) : Rest [n]
  | cons {n : Note} {ns : List Note} (hn : n.isInner = true) (hns : Rest ns) : Rest (n :: ns)

/-- What is told of a file. -/
inductive OfFile : List Note → Prop
  | mk (path : Bytes) {ns : List Note} (hns : Rest ns) : OfFile (.fileStarted path :: ns)

/-- The last note of a run, by how the run ends. -/
inductive EndsRun {σ : Type} (r : Run σ) : Note → Prop
  | finished (files : Nat) (hfailure : r.failure = none ∨ r.FoundNone) : EndsRun r (.runFinished files)
  | failed {f : Failure} (path : Bytes) (files : Nat) (hfailure : r.failure = some f)
      (hfound : ¬ r.FoundNone) : EndsRun r (.runFailed path f files)

theorem Rest.append {ns inner : List Note} (hns : Rest ns)
    (hinner : ∀ n ∈ inner, n.isInner = true) : Rest (inner ++ ns) := by
  induction inner with
  | nil => exact hns
  | cons n inner ih =>
    obtain ⟨hn, hinner⟩ := List.forall_mem_cons.mp hinner
    exact .cons hn (ih hinner)

end Note

-- --------------------------------------------------------------------
-- Worlds and notes

variable {σ : Type}

/-- An observer has been told some notes on the way from one world to another. -/
inductive Told (observer : Observer σ) (start : World σ) : List Note → World σ → Prop
  | refl : Told observer start [] start
  | note {ns : List Note} {w : World σ} (h : Told observer start ns w) (n : Note) :
      Told observer start (ns ++ [n]) (observer n w)
  | disk {ns : List Note} {w : World σ} (h : Told observer start ns w) (d : Disk) :
      Told observer start ns { w with disk := d }

namespace Job

variable {job : Job σ} {start w : World σ} {r : Run σ} {ms : List Note}

theorem notes_told (h : Told job.observer start ms w) (ns : List Note) :
    Told job.observer start (ms ++ ns) (job.notes w ns) := by
  unfold notes
  induction ns generalizing ms w with
  | nil => simpa using h
  | cons n ns ih =>
    rw [List.append_cons]
    exact ih (h.note n)

/-- Inside a file, telling more notes about it leaves less of it to be told. -/
theorem rest_of_notes {x : World σ} (inner : List Note) (hinner : ∀ n ∈ inner, n.isInner = true)
    (h : ∃ ns, Note.Rest ns ∧ Told job.observer start (ms ++ inner ++ ns) x) :
    ∃ ns, Note.Rest ns ∧ Told job.observer start (ms ++ ns) x := by
  obtain ⟨ns, hns, htold⟩ := h
  exact ⟨inner ++ ns, hns.append hinner, by rwa [← List.append_assoc]⟩

theorem notes_rest (h : Told job.observer start ms w) (inner : List Note) (last : Note)
    (hinner : ∀ n ∈ inner, n.isInner = true) (hlast : last.endsFile = true) :
    ∃ ns, Note.Rest ns ∧ Told job.observer start (ms ++ ns) (job.notes w (inner ++ [last])) :=
  ⟨_, (Note.Rest.last hlast).append hinner, notes_told h _⟩

theorem store_told (h : Told job.observer start ms w) (file : SourceFile) (after : Bytes) :
    ∃ ns, Note.Rest ns ∧ Told job.observer start (ms ++ ns) (job.store w file after).1 := by
  have hstarted := notes_told h [.phaseStarted .write]
  rw [store_eq]
  refine rest_of_notes [.phaseStarted .write] (by simp [Note.isInner]) ?_
  simp only
  split
  · exact notes_rest hstarted [.phaseFinished .write] .writeFailed (by simp [Note.isInner]) rfl
  · next disk _ =>
    exact notes_rest (hstarted.disk disk) [.phaseFinished .write] (.fileFinished .updated)
      (by simp [Note.isInner]) rfl

theorem transform_told (h : Told job.observer start ms w) (file : SourceFile) :
    ∃ ns, Note.Rest ns ∧ Told job.observer start (ms ++ ns) (job.transform w file).1 := by
  unfold transform
  generalize job.options.pipeline.applyEach file.text = p
  obtain ⟨after, changed⟩ := p
  have hinner : ∀ n ∈ Note.phaseStarted .transform :: changed.map .stepChanged ++
      [.phaseFinished .transform], n.isInner = true := by
    simp only [List.cons_append, List.mem_cons, List.mem_append, List.mem_map, List.not_mem_nil,
      or_false]
    rintro n (rfl | ⟨step, -, rfl⟩ | rfl) <;> rfl
  have hsteps := notes_told h (.phaseStarted .transform :: changed.map .stepChanged ++
    [.phaseFinished .transform])
  refine rest_of_notes _ hinner ?_
  simp only
  split
  · exact notes_rest hsteps [] (.fileFinished .unchanged) nofun rfl
  split
  · exact notes_rest hsteps [] (.fileFinished .wouldUpdate) nofun rfl
  · exact store_told hsteps file after

theorem restyle_told (h : Told job.observer start ms w) (path : Bytes) :
    ∃ ns, Note.OfFile ns ∧ Told job.observer start (ms ++ ns) (job.restyle w path).1 := by
  have hstarted := notes_told h [.fileStarted path, .phaseStarted .load]
  have hloaded := notes_told hstarted [.phaseFinished .load]
  have hrest : ∃ ns, Note.Rest ns ∧
      Told job.observer start (ms ++ [.fileStarted path] ++ ns) (job.restyle w path).1 := by
    refine rest_of_notes [.phaseStarted .load, .phaseFinished .load] (by simp [Note.isInner]) ?_
    unfold restyle
    simp only [List.append_assoc, List.cons_append, List.nil_append] at hloaded ⊢
    split
    · simpa using notes_rest hloaded [] .loadFailed nofun rfl
    · next file _ => simpa using transform_told hloaded file
  obtain ⟨ns, hns, htold⟩ := hrest
  exact ⟨_, .mk path hns, by rwa [List.append_assoc] at htold⟩

-- --------------------------------------------------------------------
-- Many files

/-- The run has started, and all that was told of it since is told of files. -/
def Between (job : Job σ) (start w : World σ) : Prop :=
  ∃ files : List (List Note), (∀ ns ∈ files, Note.OfFile ns) ∧
    Told job.observer start (.runStarted :: files.flatten) w

theorem restyle_between (h : job.Between start w) (path : Bytes) :
    job.Between start (job.restyle w path).1 := by
  obtain ⟨files, hfiles, htold⟩ := h
  obtain ⟨ns, hns, htold'⟩ := restyle_told htold path
  refine ⟨files ++ [ns], ?_, by simpa using htold'⟩
  exact List.forall_mem_append.mpr ⟨hfiles, by simpa using hns⟩

theorem process_between (h : job.Between start r.world) (path : Bytes) :
    job.Between start (job.process r path).world := by
  by_cases hp : path ∈ r.seen
  · rw [process_of_seen job hp]
    exact h
  rw [process_of_new job hp]
  split
  · exact h
  have hrestyle := restyle_between h path
  generalize job.restyle r.world path = x at hrestyle
  obtain ⟨w, f | o⟩ := x
  · exact hrestyle
  · simp only [report_world]
    exact hrestyle

theorem caught_between (h : job.Between start r.world) (names : List Bytes) :
    job.Between start (r.caught names).world := by
  unfold Run.caught
  split
  · exact h
  · exact h

theorem visit_between (hr : r.failure = none) (h : job.Between start r.world) (v : Visit) :
    job.Between start (job.visit r v).world := by
  cases hv : r.skips v.names with
  | true =>
    rw [visit_of_skips job hv]
    exact h
  | false =>
  rw [visit_of_none job hr v hv]
  cases v with
  | refused names e => exact h
  | pass names =>
    simp only
    split
    · exact h
    · exact h
  | file names path =>
    simp only
    split
    · exact h
    · exact caught_between (process_between (r := job.look r) h path) names

theorem act_between (hr : r.failure = none) (h : job.Between start r.world) (a : Act) :
    job.Between start (job.act r a).world := by
  cases a with
  | take path => exact process_between h path
  | miss path e => exact h
  | visit v => exact visit_between hr h v

/-- What a run has told: that it started, and of files, and of its failure if it has failed. -/
inductive Narrated (job : Job σ) (start : World σ) (r : Run σ) : Prop
  | underway (hfailure : r.failure = none) (h : job.Between start r.world)
  | failed {v : World σ} {f : Failure} (path : Bytes) (files : Nat) (hfailure : r.failure = some f)
      (h : job.Between start v) (hworld : r.world = job.observer (.runFailed path f files) v)

theorem move_narrated (h : job.Narrated start r) (m : Move) :
    job.Narrated start (job.move r m) := by
  cases h with
  | failed path files hfailure h hworld =>
    rw [move_of_failed (by simp [hfailure])]
    exact .failed path files hfailure h hworld
  | underway hfailure h =>
    have hact := act_between hfailure h m.act
    rw [move_eq hfailure]
    cases hf : (job.act r m.act).failure with
    | none =>
      rw [tell_of_none hf]
      exact .underway hf hact
    | some f =>
      have htell : job.tell (job.act r m.act) m.argument = (job.act r m.act).note job.observer
          (.runFailed m.argument f (job.act r m.act).results.length) := by
        rw [tell, hf]
      rw [htell]
      exact .failed _ _ hf hact rfl

theorem conclude_of_none (hr : r.failure = none) :
    job.conclude r = { r with
      world := job.observer (.runFinished r.results.length) r.world
      failure := if r.results = [] then some .noFiles else none } := by
  rw [conclude, if_neg (by simp [hr])]
  by_cases hresults : r.results = []
  · simp [Run.note, Run.fail, hresults]
  · simp [Run.note, hresults, hr]

/-- From its start to its end, a run tells of files in between. -/
theorem run_told {place? : σ → Option Location} (hobs : job.observer.KeepsTo place?) (w : World σ)
    (paths : List Bytes) :
    ∃ (files : List (List Note)) (last : Note), (∀ ns ∈ files, Note.OfFile ns) ∧
      last.EndsRun (job.run w paths false) ∧
      Told job.observer w (.runStarted :: files.flatten ++ [last])
        (job.run w paths false).world := by
  have hstart : job.Narrated w (job.start w) := .underway rfl ⟨[], nofun, .note .refl .runStarted⟩
  have hend : job.Narrated w ((job.options.moves w.disk paths).foldl job.move (job.start w)) :=
    List.foldlRecOn _ _ hstart fun _ h m _ => move_narrated h m
  have htaken := foldl_moves_taken hobs w paths
  rw [run_eq hobs]
  generalize (job.options.moves w.disk paths).foldl job.move (job.start w) = r at hend htaken
  cases hend with
  | underway hfailure h =>
    obtain ⟨files, hfiles, htold⟩ := h
    rw [conclude_of_none hfailure]
    refine ⟨files, .runFinished r.results.length, hfiles, .finished _ ?_, htold.note _⟩
    by_cases hresults : r.results = [] <;> simp [Run.FoundNone, hresults]
  | @failed v f path count hfailure h hworld =>
    obtain ⟨files, hfiles, htold⟩ := h
    have hend : (Note.runFailed path f count).EndsRun r := .failed path count hfailure htaken.failed
    rw [conclude, if_pos (by simp [hfailure]), hworld]
    exact ⟨files, .runFailed path f count, hfiles, hend, htold.note _⟩

end Job

end Restyler
