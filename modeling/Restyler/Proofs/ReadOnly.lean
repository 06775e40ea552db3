import Restyler.Proofs.Precedence
import Restyler.Proofs.Run

/-!
# Commands that only look

A command that makes a dry run or a check leaves every file as it is and makes none, however it
ends. The one file that it may write is where the trace goes. This is opened before the run, so it
can be new or have lost its contents even if the run then fails.
-/

namespace Restyler

-- --------------------------------------------------------------------
-- Free places

theorem Tree.get?_of_follow_free {t : Tree} {l parent : Location} {names : List Bytes} {m : Mode}
    {name : Bytes} (h : t.follow l names = .ok (.free parent m name)) :
    t.get? (parent ++ [name]) = none := by
  fun_induction t.follow l names with
  | case1 | case2 | case3 | case4 | case5 | case8 | case10 => cases h
  | case6 l names m' hl hs ih => exact ih h
  | case7 l names m' hl hs hne ih => exact ih h
  | case9 l name' m' hl hs h₁ h₂ hn hnone =>
    cases h
    exact hnone
  | case11 l name' names m' hl hs h₁ h₂ hn n hn' ih => exact ih h

theorem Tree.get?_of_followRemoved_free {t : Tree} {l parent : Location} {depth : Nat}
    {names : List Bytes} {m : Mode} {name : Bytes}
    (h : t.followRemoved l depth names = .ok (.free parent m name)) :
    t.get? (parent ++ [name]) = none := by
  fun_induction t.followRemoved l depth names with
  | case1 names => exact get?_of_follow_free h
  | case2 depth => cases h
  | case3 depth names ih => exact ih h
  | case4 depth names hne ih => exact ih h
  | case5 depth name names h₁ h₂ => cases h

namespace Disk

theorem get?_of_locate_free {d : Disk} {p name : Bytes} {parent : Location} {m : Mode}
    (h : d.locate p = .ok (.free parent m name)) : d.tree.get? (parent ++ [name]) = none := by
  unfold locate at h
  split at h
  · cases h
  split at h
  · cases h
  split at h
  · cases h
  split at h
  · exact Tree.get?_of_follow_free h
  · exact Tree.get?_of_followRemoved_free h

-- --------------------------------------------------------------------
-- Changes at one place

/-- The second disk differs from the first at one place at most, if there is one, and only by a file
there that is new or has other contents. -/
structure Beside (place? : Option Location) (d e : Disk) : Prop where
  cwd : e.cwd = d.cwd
  lost : e.lost = d.lost
  frame : ∀ l, place? ≠ some l → e.tree.get? l = d.tree.get? l
  file : ∀ l, place? = some l → e.tree.get? l = d.tree.get? l ∨
    (∃ m c, e.tree.get? l = some (.file m c)) ∧ ∀ m, d.tree.get? l ≠ some (.dir m)

namespace Beside

variable {place? : Option Location} {d e f : Disk}

theorem refl (d : Disk) : Beside place? d d := ⟨rfl, rfl, fun _ _ => rfl, fun _ _ => .inl rfl⟩

theorem trans (h : Beside place? d e) (h' : Beside place? e f) : Beside place? d f where
  cwd := h'.cwd.trans h.cwd
  lost := h'.lost.trans h.lost
  frame l hl := (h'.frame l hl).trans (h.frame l hl)
  file l hl := by
    rcases h'.file l hl with hsame | ⟨hfile, hdir⟩
    · rw [hsame]
      exact h.file l hl
    rcases h.file l hl with hsame | ⟨-, hdir'⟩
    · exact .inr ⟨hfile, hsame ▸ hdir⟩
    · exact .inr ⟨hfile, hdir'⟩

end Beside

theorem Within.beside {place? : Option Location} {d e : Disk} (h : Within (place? = some ·) d e) :
    Beside place? d e where
  cwd := h.cwd
  lost := h.lost
  frame := h.frame
  file l _ := by
    cases hl : d.tree.get? l with
    | none => exact .inl (h.form.none hl)
    | some n =>
      cases n with
      | dir m => exact .inl (h.form.dir hl)
      | file m c =>
        obtain ⟨c', hl'⟩ := h.form.file hl
        exact .inr ⟨⟨m, c', hl'⟩, by simp⟩

/-- The place that a path leads to, whether or not something is there. -/
def placeAt? (d : Disk) (p : Bytes) : Option Location :=
  match d.locate p with
  | .ok (.found l _) => some l
  | .ok (.free parent _ name) => some (parent ++ [name])
  | _ => none

theorem openToWrite_beside {d e : Disk} {p : Bytes} {l : Location} {mode : Mode} {alsoRead : Bool}
    (h : d.openToWrite p mode alsoRead = .ok (l, e)) :
    d.placeAt? p = some l ∧ Beside (some l) d e := by
  cases hlocate : d.locate p with
  | error x => simp [openToWrite, hlocate, refused] at h
  | ok target =>
    cases target with
    | removed above depth =>
      cases hp : endsInSlash p <;> simp [openToWrite, hlocate, refused, hp] at h
    | found k n =>
      cases n with
      | dir m => cases hp : endsInSlash p <;> simp [openToWrite, hlocate, refused, hp] at h
      | file m c =>
        obtain ⟨rfl, rfl⟩ := openToWrite_ok hlocate h
        refine ⟨by simp [placeAt?, hlocate], Within.beside ?_⟩
        exact (within_set d (get?_of_locate hlocate) []).2.mono fun _ hk => congrArg some hk.symm
    | free parent m name =>
      have hfree := get?_of_locate_free hlocate
      unfold openToWrite at h
      simp only [hlocate] at h
      split at h
      · cases h
      split at h
      · cases h
        have hself := d.tree.get?_set_self (List.append_ne_nil_of_right_ne_nil parent
          (List.cons_ne_nil name [])) (.file mode.masked [])
        refine ⟨by simp [placeAt?, hlocate], rfl, rfl, fun k hk => ?_, fun k hk => ?_⟩
        · exact d.tree.get?_set_of_ne (fun heq => hk (congrArg some heq.symm)) _
        · cases hk
          exact .inr ⟨⟨_, _, hself⟩, by simp [hfree]⟩
      · cases h

end Disk

-- --------------------------------------------------------------------
-- Opening a trace

namespace Cli

/-- The place that a trace goes to, if it goes to a file. -/
def Invocation.tracePlace? (i : Invocation) (d : Disk) : Option Location :=
  if i.trace = [] ∨ i.trace = Trace.Sink.errorStream then none else d.placeAt? i.trace

variable {d : Disk} {i : Invocation}

/-- A trace is opened without a change elsewhere, and then goes to the place that is named. -/
def OpensTrace (i : Invocation) (d : Disk) (sink : Trace.Sink) (e : Disk) : Prop :=
  d.Beside (i.tracePlace? d) e ∧ ∀ l, sink.place? = some l → i.tracePlace? d = some l

theorem opensTrace_memory (d : Disk) : OpensTrace i d .memory d := ⟨.refl d, nofun⟩

theorem create_ok {sink : Trace.Sink} {e : Disk} (h : Trace.Sink.create d i.trace = .ok (sink, e)) :
    OpensTrace i d sink e := by
  unfold Trace.Sink.create at h
  split at h
  · cases h
    exact opensTrace_memory d
  next hpath =>
  split at h
  · next l e' hopen =>
    cases h
    obtain ⟨hplace, hbeside⟩ := Disk.openToWrite_beside hopen
    have htrace : i.tracePlace? d = some l := by
      rw [Invocation.tracePlace?, if_neg (by simpa using hpath), hplace]
    exact ⟨htrace ▸ hbeside, fun k hk => htrace.trans hk⟩
  · cases h

theorem tracing_ok {tracer : Trace.Tracer} {sink : Trace.Sink} {e : Disk}
    (h : tracing d i = .ok (tracer, sink, e)) : OpensTrace i d sink e := by
  simp only [tracing, bind_ok] at h
  obtain ⟨level, -, h⟩ := h
  split at h
  · cases h
    exact opensTrace_memory d
  simp only [bind_ok, Settings.within_ok] at h
  obtain ⟨format, -, h⟩ := h
  unfold Trace.openTrace at h
  split at h
  · cases h
    exact opensTrace_memory d
  split at h
  · next hcreate =>
    cases h
    exact create_ok hcreate
  · cases h

-- --------------------------------------------------------------------
-- The whole command

theorem Setup.account (x : Setup) (now : Trace.Moment) (i : Invocation) :
    Account (x.job i).options x.sink.place? x.disk (x.run now i).world.disk
      (x.run now i).results := by
  have hobs : (x.job i).observer.KeepsTo fun w => w.sink.place? := Watch.observer_keepsTo
  exact (Job.run_balanced hobs (x.world now i) i.paths false).account

theorem Setup.dryRun_job (x : Setup) (hmode : i.dryRun = true ∨ i.check = true) :
    (x.job i).options.dryRun = true := by
  simpa [job] using hmode

theorem Setup.run_within (x : Setup) (now : Trace.Moment)
    (hmode : i.dryRun = true ∨ i.check = true) :
    Disk.Within (x.sink.place? = some ·) x.disk (x.run now i).world.disk := by
  have haccount := x.account now i
  exact ⟨haccount.cwd, haccount.lost, haccount.form,
    fun l hl => haccount.get?_of_dryRun (x.dryRun_job hmode) hl⟩

theorem conclude_disk (style : ReportStyle) (r : Run Watch) :
    (conclude i style r).disk = r.world.disk := by
  unfold conclude
  cases r.failure with
  | some f => rfl
  | none =>
    simp only
    split <;> rfl

theorem restyle_beside {library : Library} {now : Trace.Moment} {response : Response}
    (hmode : i.dryRun = true ∨ i.check = true) (h : restyle library d now i = .ok response) :
    d.Beside (i.tracePlace? d) response.disk := by
  rw [restyle, bind_ok] at h
  obtain ⟨x, hx, h⟩ := h
  cases h
  obtain ⟨hopened, hplace⟩ := tracing_ok (prepare_ok.mp hx).tracing
  have hrun : x.disk.Beside (i.tracePlace? d) (x.run now i).world.disk :=
    Disk.Within.beside ((x.run_within now hmode).mono fun l hl => hplace l hl)
  rw [conclude_disk]
  exact hopened.trans hrun

/-- A command with `--dry-run` or `--check` leaves the disk as it is, but for the file that
`--trace` names. Arguments that cannot be read leave it as it is. -/
theorem execute_readOnly {library : Library} {d : Disk} {now : Trace.Moment}
    {arguments : List Bytes}
    (hmode : ∀ i, Invocation.ofArguments arguments = .ok i → i.dryRun = true ∨ i.check = true) :
    (∀ fault, Invocation.ofArguments arguments = .error fault →
      (execute d now arguments library).disk = d) ∧
    ∀ i, Invocation.ofArguments arguments = .ok i →
      d.Beside (i.tracePlace? d) (execute d now arguments library).disk := by
  unfold execute
  cases library.answer? arguments with
  | some answer => exact ⟨fun _ _ => rfl, fun _ _ => .refl d⟩
  | none =>
    refine ⟨fun fault h => by simp [h, Response.failed], fun i h => ?_⟩
    simp only [h]
    split
    · exact .refl d
    split
    · exact .refl d
    split
    · exact .refl d
    split
    · next hresponse => exact restyle_beside (hmode i h) hresponse
    · exact .refl d

/-- A check that finds something, with a trace to a new file. -/
theorem execute_readOnly_check :
    let d := (World.ofNodes [(bytes "a.js", .file .ofFile (bytes "\"a\""))]).disk
    let arguments := [bytes "--check", bytes "--trace=t", bytes "a.js"]
    let response := execute d ⟨0, 0, 0⟩ arguments
    response.exit = 1 ∧ d.Beside (some [bytes "t"]) response.disk ∧
      d.tree.get? [bytes "t"] = none ∧ (response.disk.tree.get? [bytes "t"]).isSome = true := by
  intro d arguments response
  let i : Invocation :=
    { Invocation.empty with check := true, trace := bytes "t", paths := [bytes "a.js"] }
  have hparsed : Invocation.ofArguments arguments = .ok i := by decide +kernel
  have hmode : ∀ j, Invocation.ofArguments arguments = .ok j →
      j.dryRun = true ∨ j.check = true := by
    intro j hj
    rw [hparsed] at hj
    cases hj
    exact .inr rfl
  have hplace : i.tracePlace? d = some [bytes "t"] := by decide +kernel
  have hbeside : d.Beside (i.tracePlace? d) (execute d ⟨0, 0, 0⟩ arguments .bare).disk :=
    (execute_readOnly hmode).2 i hparsed
  exact ⟨by decide +kernel, hplace ▸ hbeside, by decide +kernel, by decide +kernel⟩

end Cli

end Restyler
