import Restyler.Proofs.Selection

/-!
# Runs that a report ends

A reporter may end a run: by stopping it, or by cancelling it, which the run notices before it takes
another file. To ask a walk to leave something out does not end a run. Two runs whose reporters give
the same answers before a certain report are the same up to there. If that report ends one of them, it leaves what the other had done when it made the
report; what is left of its moves does nothing, or fails.
-/

namespace Restyler

/-- Whether an answer ends the run. -/
def Reply.ends (reply : Reply) : Bool := reply.cancels || reply.stops.any (!·.asksToSkip)

namespace Job

variable {σ : Type}

/-- The run when it has just made its `n`-th report, if it comes to that. -/
def atReport? (job : Job σ) (w : World σ) (paths : List Bytes) (n : Nat) : Option (Run σ) :=
  (job.states w paths).find? (·.reported.length = n)

-- --------------------------------------------------------------------
-- After the last report

/-- The run `e` has been ended by a reply, where a run that may go on is `s`. The file that the
trace goes to is exempt. -/
structure EndedAt (place? : σ → Option Location) (trace : Option Location) (reply : Reply)
    (s e : Run σ) : Prop where
  results : e.results = s.results
  reported : e.reported = s.reported
  place : place? e.world.watch = trace
  nodes : ∀ l, trace ≠ some l → e.world.disk.tree.get? l = s.world.disk.tree.get? l
  ended : e.failure.isSome = true ∨ e.canceled = true
  stopped : ∀ f ∈ reply.stops, f.asksToSkip = false → e.failure = some f

variable {job : Job σ} {place? : σ → Option Location} {trace : Option Location} {reply : Reply}
  {r s e : Run σ} {n : Nat}

theorem EndedAt.aside (h : EndedAt place? trace reply s e) {e' : Run σ}
    (hworld : World.Aside place? e.world e'.world) (hresults : e'.results = e.results)
    (hreported : e'.reported = e.reported)
    (hended : e'.failure.isSome = true ∨ e'.canceled = true)
    (hfailure : ∀ f, e.failure = some f → e'.failure = some f) :
    EndedAt place? trace reply s e' where
  results := hresults.trans h.results
  reported := hreported.trans h.reported
  place := hworld.place.trans h.place
  nodes l hl := (hworld.writes.frame l (h.place ▸ hl)).trans (h.nodes l hl)
  ended := hended
  stopped f hf hends := hfailure f (h.stopped f hf hends)

theorem settle_of_stopped {o : Outcome} {f : Failure} (hf : f ∈ reply.stops)
    (hends : f.asksToSkip = false) (a : Act) :
    settle (r.answered o reply) a = r.answered o reply ∧ (r.answered o reply).failure = some f := by
  have hfailed : (r.answered o reply).failure = some f := by
    simp [Run.answered, Option.mem_def.mp hf]
  exact ⟨settle_of_failed hfailed hends a, hfailed⟩

section
variable (hobs : job.observer.KeepsTo place?)
include hobs

/-- A run that is cancelled takes no further file. -/
theorem EndedAt.move (h : EndedAt place? trace reply s e) (m : Move) :
    EndedAt place? trace reply s (job.move e m) := by
  rcases move_cases hobs e m with ⟨-, hmove⟩ | ⟨hfailure, e', o?, w, hattempt, hmove, hworld⟩
  · rw [hmove]
    exact h
  have hcanceled : e.canceled = true := by simpa [hfailure] using h.ended
  rw [hmove]
  cases hattempt with
  | idle hworld' hresults hreported _ hcanceled' =>
    exact h.aside (hworld' ▸ hworld) hresults hreported (.inr (hcanceled' hcanceled))
      (by simp [hfailure])
  | failed hworld' hresults hreported hfailure' =>
    exact h.aside (hworld'.trans hworld) hresults hreported (.inl (by simp [reportAny, hfailure']))
      (by simp [hfailure])
  | finished hcalm => exact absurd hcanceled (by simp [hcalm])

theorem EndedAt.conclude (h : EndedAt place? trace reply s e) :
    EndedAt place? trace reply s (job.conclude e) := by
  cases hfailure : e.failure with
  | some f =>
    rw [Job.conclude, if_pos (by simp [hfailure])]
    exact h
  | none =>
    have hcanceled : e.canceled = true := by simpa [hfailure] using h.ended
    obtain ⟨w, f?, hconclude, hworld⟩ := conclude_eq hobs e
    rw [hconclude]
    exact h.aside hworld rfl rfl (.inr hcanceled) (by simp [hfailure])

-- --------------------------------------------------------------------
-- Up to the last report

theorem move_place (r : Run σ) (m : Move) :
    place? (job.move r m).world.watch = place? r.world.watch := by
  rcases move_cases hobs r m with ⟨-, hmove⟩ | ⟨-, r', o?, w, hattempt, hmove, hworld⟩
  · rw [hmove]
  rw [hmove, hworld.place]
  cases hattempt with
  | idle hworld' => exact congrArg (fun w => place? w.watch) hworld'
  | failed hworld' => exact hworld'.place
  | @finished o _ _ _ hplace =>
    obtain ⟨reported, canceled, failure, skipped, hsettle, -⟩ := job.settle_report_eq r' o m.act
    rw [reportAny, hsettle, hplace]

theorem move_reported (r : Run σ) (m : Move) : r.reported <+: (job.move r m).reported := by
  rcases move_cases hobs r m with ⟨-, hmove⟩ | ⟨-, r', o?, w, hattempt, hmove, -⟩
  · simp only [hmove, List.prefix_rfl]
  rw [hmove]
  cases hattempt with
  | idle _ _ hreported => exact hreported ▸ List.prefix_rfl
  | failed _ _ hreported => exact hreported ▸ List.prefix_rfl
  | @finished o _ _ _ _ _ hreported =>
    obtain ⟨reported, canceled, failure, skipped, hsettle, hprefix⟩ :=
      job.settle_report_eq r' o m.act
    rw [reportAny, hsettle, ← hreported]
    exact hprefix

theorem foldl_move_reported (r : Run σ) (ms : List Move) :
    r.reported <+: (ms.foldl job.move r).reported := by
  induction ms generalizing r with
  | nil => exact List.prefix_rfl
  | cons m ms ih => exact (move_reported hobs r m).trans (ih _)

theorem tell_answered_reported (r : Run σ) (o : Outcome) (reply : Reply) (a : Act) (path : Bytes) :
    (job.tell (settle (r.answered o reply) a) path).reported = r.reported ++ [o] := by
  obtain ⟨w, htell, -⟩ := tell_eq hobs (settle (r.answered o reply) a) path
  obtain ⟨failure, skipped, hsettle⟩ := settle_eq (r.answered o reply) a
  rw [htell, hsettle, Run.answered]

theorem endedAt_answered {o : Outcome} {reply' : Reply} (hr : place? r.world.watch = trace)
    (hends : reply.ends = true) (a : Act) (path : Bytes) :
    EndedAt place? trace reply (job.tell (settle (r.answered o reply') a) path)
      (job.tell (settle (r.answered o reply) a) path) := by
  obtain ⟨w, htell, hworld⟩ := tell_eq hobs (settle (r.answered o reply') a) path
  obtain ⟨v, htell', hworld'⟩ := tell_eq hobs (settle (r.answered o reply) a) path
  obtain ⟨failure, skipped, hsettle⟩ := settle_eq (r.answered o reply') a
  obtain ⟨failure', skipped', hsettle'⟩ := settle_eq (r.answered o reply) a
  rw [hsettle] at hworld
  rw [hsettle'] at hworld'
  have hstopped : ∀ f ∈ reply.stops, f.asksToSkip = false → failure' = some f := by
    intro f hf hkept
    obtain ⟨hsame, hfailed⟩ := settle_of_stopped (r := r) (o := o) hf hkept a
    rw [← hfailed, ← hsame, hsettle']
  rw [htell, htell', hsettle, hsettle']
  refine ⟨rfl, rfl, hworld'.place.trans hr, fun l hl => ?_, ?_, hstopped⟩
  · have hplace : place? r.world.watch ≠ some l := hr ▸ hl
    exact (hworld'.writes.frame l hplace).trans (hworld.writes.frame l hplace).symm
  · rcases Bool.or_eq_true_iff.mp hends with hcancels | hstops
    · exact .inr (by simp [Run.answered, hcancels])
    · obtain ⟨f, hf, hkept⟩ := (Option.any_eq_true _ _).mp hstops
      exact .inl (by simp [hstopped f hf (by simpa using hkept)])

end

/-- A run that has reported all its results, and fewer than `n`. -/
structure Before (place? : σ → Option Location) (trace : Option Location) (n : Nat)
    (r : Run σ) : Prop where
  place : place? r.world.watch = trace
  shown : r.reported = r.results
  count : r.reported.length < n

section
variable (hobs : job.observer.KeepsTo place?) {answer answer' : Nat → Outcome → Reply}
  (hagree : ∀ k < n, ∀ o, answer' k o = answer k o)
include hobs hagree

/-- Two runs whose reporters agree before the `n`-th report make a move together, until both come to
that report. -/
theorem move_together (hr : Before place? trace n r) (m : Move) :
    let s := (job.withReporter (some answer)).move r m
    let e := (job.withReporter (some answer')).move r m
    (e = s ∧ Before place? trace n s) ∨
      ∃ o, s.reported = r.reported ++ [o] ∧ s.reported.length = n ∧ s.reported = s.results ∧
        ((answer' n o).ends = true → EndedAt place? trace (answer' n o) s e) := by
  intro s e
  have hobs' (reporter) : (job.withReporter reporter).observer.KeepsTo place? := hobs
  have hplace : place? s.world.watch = trace := (move_place (hobs' _) r m).trans hr.place
  have hshown : s.reported = s.results := move_shown (hobs' _) (fun _ => hr.shown) m rfl
  cases hfailure : r.failure with
  | some f =>
    have hfailed : r.failure.isSome = true := by simp [hfailure]
    have hs : s = r := move_of_failed hfailed m
    exact .inl ⟨(move_of_failed hfailed m).trans hs.symm, hs ▸ hr⟩
  | none =>
    obtain ⟨r', o?, hattempt, hmove⟩ := move_attempt hobs hfailure m
    have hreported : r'.reported = r.reported := by cases hattempt <;> assumption
    cases o? with
    | none =>
      obtain ⟨w, htell, -⟩ := tell_eq hobs r' m.argument
      have hs : s = { r' with world := w } := (hmove (some answer)).trans htell
      have he : e = { r' with world := w } := (hmove (some answer')).trans htell
      refine .inl ⟨he.trans hs.symm, hplace, hshown, ?_⟩
      rw [hs, hreported]
      exact hr.count
    | some o =>
      have hreport (a : Nat → Outcome → Reply) : (job.withReporter (some a)).move r m =
          job.tell (settle (r'.answered o (a (r.reported.length + 1) o)) m.act) m.argument := by
        rw [hmove, reportAny, report_of_some rfl, hreported]
      have hs : s = _ := hreport answer
      have he : e = _ := hreport answer'
      have hnew : s.reported = r.reported ++ [o] := by
        rw [hs, tell_answered_reported hobs, hreported]
      have hcount : s.reported.length = r.reported.length + 1 := by simp [hnew]
      -- The replies are the same unless this is the `n`-th report.
      by_cases hlast : r.reported.length + 1 < n
      · rw [hagree _ hlast] at he
        exact .inl ⟨he.trans hs.symm, hplace, hshown, hcount ▸ hlast⟩
      · have hn : r.reported.length + 1 = n := Nat.le_antisymm hr.count (Nat.not_lt.mp hlast)
        refine .inr ⟨o, hnew, hcount.trans hn, hshown, fun hends => ?_⟩
        have hplace' : place? r'.world.watch = trace := by
          cases hattempt with
          | finished _ _ _ hplace' => exact hplace'.trans hr.place
        rw [hn] at hs he
        rw [hs, he]
        exact endedAt_answered hobs hplace' hends m.act m.argument

/-- The run that goes on is found among its states; the other one has ended there. -/
theorem foldl_move_together (hr : Before place? trace n r) (ms : List Move) :
    let full := ms.foldl (job.withReporter (some answer)).move r
    let ended := ms.foldl (job.withReporter (some answer')).move r
    n ≤ full.reported.length → (∀ o ∈ full.reported[n - 1]?, (answer' n o).ends = true) →
      ∃ s o, (ms.scanl (job.withReporter (some answer)).move r).find? (·.reported.length = n) =
          some s ∧
        s.reported = s.results ∧ s.reported = full.reported.take n ∧
        full.reported[n - 1]? = some o ∧ EndedAt place? trace (answer' n o) s ended := by
  have hobs' (reporter) : (job.withReporter reporter).observer.KeepsTo place? := hobs
  induction ms generalizing r with
  | nil =>
    intro full ended hlength
    exact absurd hlength (Nat.not_le.mpr hr.count)
  | cons m ms ih =>
    intro full ended hlength hends
    have hfind := decide_eq_false (Nat.ne_of_lt hr.count)
    rw [List.scanl_cons, List.find?_cons, hfind]
    rcases move_together hobs hagree hr m with ⟨hsame, hnext⟩ | ⟨o, hnew, hcount, hshown, hat⟩
    · have htail : ended = ms.foldl (job.withReporter (some answer')).move
          ((job.withReporter (some answer)).move r m) := by
        simp only [ended, List.foldl_cons, hsame]
      rw [htail]
      exact ih hnext hlength hends
    · -- The `n`-th report has been made: it stays where it is in the longer run, and the ended run
      -- has no move left that does anything.
      have hmore := foldl_move_reported (hobs' (some answer))
        ((job.withReporter (some answer)).move r m) ms
      have htake := List.prefix_iff_eq_take.mp hmore
      rw [hcount] at htake
      have ho : full.reported[n - 1]? = some o := by
        obtain ⟨later, hlater⟩ := hmore
        have hfull : full.reported = r.reported ++ o :: later := by
          rw [List.append_cons, ← hnew]
          exact hlater.symm
        have hn : n - 1 = r.reported.length := by simp [← hcount, hnew]
        simp [hfull, hn]
      refine ⟨_, o, ?_, hshown, htake, ho, ?_⟩
      · cases ms <;> simp [hcount]
      · exact List.foldlRecOn ms _ (hat (hends o ho)) fun _ h m _ => h.move (hobs' _) m

end

/-- A run that its `n`-th report ends is the initial part of the other run up to that report. -/
theorem run_together (job : Job σ) (hobs : job.observer.KeepsTo place?)
    {answer answer' : Nat → Outcome → Reply}
    (hagree : ∀ k < n, ∀ o, answer' k o = answer k o) (w : World σ) (paths : List Bytes) :
    let full := (job.withReporter (some answer)).run w paths false
    let ended := (job.withReporter (some answer')).run w paths false
    0 < n → n ≤ full.reported.length →
    (∀ o ∈ full.reported[n - 1]?, (answer' n o).ends = true) →
      ∃ s o, (job.withReporter (some answer)).atReport? w paths n = some s ∧
        s.reported = s.results ∧ s.reported = full.reported.take n ∧
        full.reported[n - 1]? = some o ∧
        EndedAt place? (place? w.watch) (answer' n o) s ended := by
  intro full ended hn hlength hends
  have hobs' (reporter) : (job.withReporter reporter).observer.KeepsTo place? := hobs
  have hstart : Before place? (place? w.watch) n (job.start w) :=
    ⟨(hobs .runStarted w).place, rfl, hn⟩
  have hended : ended = _ := run_eq (hobs' _) w paths
  have hfull : full = _ := run_eq (hobs' _) w paths
  obtain ⟨v, f?, hconclude, -⟩ := conclude_eq (hobs' (some answer))
    (((job.withReporter (some answer)).options.moves w.disk paths).foldl
      (job.withReporter (some answer)).move ((job.withReporter (some answer)).start w))
  rw [hconclude] at hfull
  rw [hfull] at hlength hends ⊢
  obtain ⟨s, o, hfind, hshown, htake, ho, hat⟩ :=
    foldl_move_together hobs hagree hstart (job.options.moves w.disk paths) hlength hends
  rw [hended]
  exact ⟨s, o, hfind, hshown, htake, ho, hat.conclude (hobs' _)⟩

end Job

-- --------------------------------------------------------------------
-- Traced runs

/-- A run that is ended by its `n`-th report is an initial part of the run that goes on: it returns
the first `n` results, makes `n` reports, and leaves the files as they were when the other run made
its `n`-th report. If the report stopped it, it fails with what the reporter said. Reports before
that one may have asked for something to be left out. -/
theorem Watch.run_interrupted (options : Options) (interrupted : Nat → Bool) (w : World Watch)
    (paths : List Bytes) (answer answer' : Nat → Outcome → Reply) (n : Nat) :
    let job (answer : Nat → Outcome → Reply) : Job Watch :=
      ⟨Watch.observer, options, some answer, interrupted⟩
    let full := (job answer).run w paths false
    let ended := (job answer').run w paths false
    0 < n → n ≤ full.reported.length → (∀ k < n, ∀ o, answer' k o = answer k o) →
    (∀ o ∈ full.reported[n - 1]?, (answer' n o).ends = true) →
      ended.results = full.results.take n ∧
      ended.reported = full.reported.take n ∧ ended.reported.length = n ∧
      (∃ s, (job answer).atReport? w paths n = some s ∧
        ∀ l, w.watch.sink.place? ≠ some l →
          ended.world.disk.tree.get? l = s.world.disk.tree.get? l) ∧
      ∀ o ∈ full.reported[n - 1]?, ∀ f ∈ (answer' n o).stops, f.asksToSkip = false →
        ended.failure = some f := by
  intro job full ended hn hlength hagree hends
  have hobs (answer) : (job answer).observer.KeepsTo fun w => w.sink.place? :=
    Watch.observer_keepsTo
  have hshown : full.reported = full.results := Job.run_shown (hobs answer) w paths rfl
  obtain ⟨s, o, hfind, hs, htake, ho, hat⟩ :=
    Job.run_together (job answer) (hobs answer) hagree w paths hn hlength hends
  have hreported : ended.reported = full.reported.take n := hat.reported.trans htake
  refine ⟨?_, hreported, ?_, ⟨s, hfind, hat.nodes⟩, ?_⟩
  · calc ended.results
      _ = s.results := hat.results
      _ = full.reported.take n := hs.symm.trans htake
      _ = full.results.take n := by rw [hshown]
  · rw [hreported, List.length_take, Nat.min_eq_left hlength]
  · intro o' ho'
    obtain rfl : o' = o := Option.some.inj (ho'.symm.trans ho)
    exact hat.stopped

theorem Watch.run_interrupted_second :
    let options : Options := ⟨false, .utf8, .ofWidth 2, []⟩
    let w := World.ofNodes [(bytes "a.js", .file .ofFile (bytes "\"a\"")),
      (bytes "b.js", .file .ofFile (bytes "\"b\"")), (bytes "c.js", .file .ofFile (bytes "\"c\""))]
    let stop : Nat → Outcome → Reply := fun k _ =>
      if k = 2 then ⟨false, some (bytes "full")⟩ else .proceed
    let job (answer : Nat → Outcome → Reply) : Job Watch :=
      ⟨Watch.observer, options, some answer, fun _ => false⟩
    let full := (job fun _ _ => .proceed).run w [bytes "a.js", bytes "."] false
    let ended := (job stop).run w [bytes "a.js", bytes "."] false
    full.reported.length = 3 ∧
      ended.results = full.results.take 2 ∧
      ended.reported = full.reported.take 2 ∧ ended.reported.length = 2 ∧
      (∃ s, (job fun _ _ => .proceed).atReport? w [bytes "a.js", bytes "."] 2 = some s ∧
        ∀ l, w.watch.sink.place? ≠ some l →
          ended.world.disk.tree.get? l = s.world.disk.tree.get? l) ∧
      ∀ o ∈ full.reported[2 - 1]?, ∀ f ∈ (stop 2 o).stops, f.asksToSkip = false →
        ended.failure = some f := by
  intro options w stop
  have hagree : ∀ k < 2, ∀ o, stop k o = .proceed := fun k hk o => if_neg (Nat.ne_of_lt hk)
  refine ⟨?_, Watch.run_interrupted options (fun _ => false) w [bytes "a.js", bytes "."]
    (fun _ _ => .proceed) stop 2 (by decide) ?_ hagree (fun _ _ => rfl)⟩
  · decide +kernel
  · decide +kernel

end Restyler
