import Restyler.Proofs.Spelling
import Restyler.Timer

/-!
# Phases by calls

A timer is used by calls in any order and with any handles. Each start has its own handle, and it
counts for its name if a later call finishes that handle, however often and whatever else is started
or finished in between. So the report can be read off the calls: the names in the order of their
first start, each with the number of its handles that a later call finishes.
-/

namespace Restyler.Timer

-- --------------------------------------------------------------------
-- Calls

/-- A use of a timer, at a reading of the clock. -/
inductive Call where
  | start (now : Nat) (name : Bytes)
  | finish (now : Nat) (handle : Int)

def Call.after (t : Timer) : Call → Timer
  | start now name => (t.start now name).1
  | finish now handle => t.finish now handle

def after (t : Timer) (cs : List Call) : Timer := cs.foldl Call.after t

def Call.finishes (handle : Nat) : Call → Bool
  | start _ _ => false
  | finish _ h => h = handle

/-- A start with the handle that it gave out and the calls after it. -/
structure Start where
  name : Bytes
  handle : Nat
  later : List Call

/-- The starts among the calls that a timer is used by. -/
def starts : Timer → List Call → List Start
  | _, [] => []
  | t, .start now name :: cs =>
    ⟨name, (t.start now name).2, cs⟩ :: starts (t.start now name).1 cs
  | t, .finish now handle :: cs => starts (t.finish now handle) cs

/-- Whether a later call finishes the handle. -/
def Start.isFinished (s : Start) : Bool := s.later.any (Call.finishes s.handle)

-- --------------------------------------------------------------------
-- What a call does

variable {t : Timer}

def names (t : Timer) : List Bytes := t.phases.map PhaseTotal.name

/-- The handles that are running. -/
def underway (t : Timer) : List Nat := t.running.map OpenPhase.handle

/-- How often the phase of a name was finished. -/
def tally (t : Timer) (name : Bytes) : Nat :=
  ((t.phases.find? (·.name = name)).map PhaseTotal.count).getD 0

theorem tally_name (ht : t.names.Nodup) {p : PhaseTotal} (hp : p ∈ t.phases) :
    t.tally p.name = p.count := by
  cases h : t.phases.find? (·.name = p.name) with
  | some q =>
    have hq : q.name = p.name := by simpa using List.find?_some h
    have := List.inj_on_of_nodup_map ht (List.mem_of_find?_eq_some h) hp hq
    simp [tally, h, this]
  | none => simpa using List.find?_eq_none.mp h p hp

/-- The phase with the time since `o` was started, if `o` is of this phase. -/
def credit (now : Nat) (o : OpenPhase) (p : PhaseTotal) : PhaseTotal :=
  if p.name = o.name then ⟨p.name, p.nanoseconds + (now - o.started), p.count + 1⟩ else p

@[simp] theorem name_credit (now : Nat) (o : OpenPhase) (p : PhaseTotal) :
    (credit now o p).name = p.name := by
  unfold credit
  split <;> rfl

theorem count_credit (now : Nat) (o : OpenPhase) (p : PhaseTotal) :
    (credit now o p).count = p.count + if o.name = p.name then 1 else 0 := by
  unfold credit
  split
  · next h => simp [h]
  · next h => simp [Ne.symm h]

/-- What a finish leaves of a timer on which it ends `o`. -/
def ended (t : Timer) (now : Nat) (o : OpenPhase) : Timer :=
  ⟨t.phases.map (credit now o), t.running.filter fun r => r.handle ≠ o.handle, t.handles⟩

/-- A finish ends the phase that runs under its handle, and without one it changes nothing. -/
theorem finish_cases (t : Timer) (now : Nat) (handle : Int) :
    ((∀ o ∈ t.running, (o.handle : Int) ≠ handle) ∧ t.finish now handle = t) ∨
      ∃ o ∈ t.running, (o.handle : Int) = handle ∧ t.finish now handle = t.ended now o := by
  unfold finish
  cases ho : t.running.find? fun o => (o.handle : Int) = handle with
  | none => exact .inl ⟨by simpa using ho, rfl⟩
  | some o => exact .inr ⟨o, List.mem_of_find?_eq_some ho, by simpa using List.find?_some ho, rfl⟩

@[simp] theorem names_finish (now : Nat) (handle : Int) :
    (t.finish now handle).names = t.names := by
  obtain ⟨-, h⟩ | ⟨o, -, -, h⟩ := finish_cases t now handle
  · rw [h]
  · simp [h, names, ended]

@[simp] theorem handles_finish (now : Nat) (handle : Int) :
    (t.finish now handle).handles = t.handles := by
  obtain ⟨-, h⟩ | ⟨o, -, -, h⟩ := finish_cases t now handle <;> rw [h]
  rfl

theorem mem_running_finish {now : Nat} {handle : Int} {o : OpenPhase} :
    o ∈ (t.finish now handle).running ↔ o ∈ t.running ∧ (o.handle : Int) ≠ handle := by
  obtain ⟨hne, h⟩ | ⟨r, -, rfl, h⟩ := finish_cases t now handle
  · rw [h]
    exact ⟨fun ho => ⟨ho, hne o ho⟩, And.left⟩
  · have hne : ((o.handle : Int) ≠ r.handle) ↔ o.handle ≠ r.handle := not_congr Int.natCast_inj
    rw [h, hne]
    simp [ended]

theorem mem_underway_finish {now : Nat} {handle : Int} {h : Nat} :
    h ∈ (t.finish now handle).underway ↔ h ∈ t.underway ∧ (h : Int) ≠ handle := by
  simp only [underway, List.mem_map, mem_running_finish]
  constructor
  · rintro ⟨o, ⟨ho, hne⟩, rfl⟩
    exact ⟨⟨o, ho, rfl⟩, hne⟩
  · rintro ⟨⟨o, ho, rfl⟩, hne⟩
    exact ⟨o, ⟨ho, hne⟩, rfl⟩

theorem finish_eq_self_iff {now : Nat} {handle : Int} :
    t.finish now handle = t ↔ ∀ h ∈ t.underway, (h : Int) ≠ handle := by
  constructor
  · intro heq h hh
    rw [← heq] at hh
    exact (mem_underway_finish.mp hh).2
  · intro hne
    obtain ⟨-, h⟩ | ⟨o, ho, heq, -⟩ := finish_cases t now handle
    · exact h
    · exact absurd heq (hne o.handle (List.mem_map_of_mem ho))

theorem phases_start (now : Nat) (name : Bytes) :
    (t.start now name).1.phases =
      if name ∈ t.names then t.phases else t.phases ++ [⟨name, 0, 0⟩] := by
  simp [start, names]

@[simp] theorem running_start (now : Nat) (name : Bytes) :
    (t.start now name).1.running = t.running ++ [⟨t.handles + 1, name, now⟩] := rfl

@[simp] theorem underway_start (now : Nat) (name : Bytes) :
    (t.start now name).1.underway = t.underway ++ [t.handles + 1] := by
  simp [underway]

theorem names_start (now : Nat) (name : Bytes) :
    (t.start now name).1.names = if name ∈ t.names then t.names else t.names ++ [name] := by
  rw [names, phases_start]
  split
  · rfl
  · simp [names]

/-- A phase that is new has not been finished, so a start changes no tally. -/
@[simp] theorem tally_start (now : Nat) (name n : Bytes) :
    (t.start now name).1.tally n = t.tally n := by
  rw [tally, phases_start]
  split
  · rfl
  · cases h : t.phases.find? (·.name = n) <;> by_cases hn : name = n <;> simp [tally, h, hn]

theorem tally_ended {now : Nat} {o : OpenPhase} (ho : o.name ∈ t.names) (n : Bytes) :
    (t.ended now o).tally n = t.tally n + if o.name = n then 1 else 0 := by
  have hfind : (t.phases.map (credit now o)).find? (·.name = n) =
      (t.phases.find? (·.name = n)).map (credit now o) := by
    have hsame : (fun p : PhaseTotal => decide (p.name = n)) ∘ credit now o =
        fun p => decide (p.name = n) := by
      funext p
      simp
    rw [List.find?_map, hsame]
  cases h : t.phases.find? (·.name = n) with
  | some p =>
    have hp : p.name = n := by simpa using List.find?_some h
    simp [tally, ended, hfind, h, count_credit, hp]
  | none =>
    have hne : o.name ≠ n := by
      rintro rfl
      simp [names] at h ho
      obtain ⟨p, hp, heq⟩ := ho
      exact h p hp heq
    simp [tally, ended, hfind, h, hne]

-- --------------------------------------------------------------------
-- What calls preserve

/-- Each running phase is reported, and has a handle of its own that was given out. -/
structure Ordered (t : Timer) : Prop where
  reported : ∀ o ∈ t.running, o.name ∈ t.names
  given : ∀ h ∈ t.underway, h ≤ t.handles
  distinct : t.underway.Nodup

theorem ordered_empty : Ordered empty := ⟨nofun, nofun, .nil⟩

theorem Ordered.start (ht : t.Ordered) (now : Nat) (name : Bytes) :
    (t.start now name).1.Ordered where
  reported o ho := by
    have hnames : name ∈ (t.start now name).1.names ∧ t.names ⊆ (t.start now name).1.names := by
      rw [names_start]
      split <;> simp [*]
    rw [running_start, List.mem_append, List.mem_singleton] at ho
    obtain ho | rfl := ho
    · exact hnames.2 (ht.reported o ho)
    · exact hnames.1
  given h hh := by
    rw [underway_start, List.mem_append, List.mem_singleton] at hh
    obtain hh | rfl := hh
    · exact (ht.given h hh).trans (Nat.le_succ _)
    · exact Nat.le_refl _
  distinct := by
    rw [underway_start, ← List.concat_eq_append]
    exact ht.distinct.concat fun h => absurd (ht.given _ h) (Nat.not_succ_le_self _)

theorem Ordered.finish (ht : t.Ordered) (now : Nat) (handle : Int) :
    (t.finish now handle).Ordered where
  reported o ho := by
    rw [names_finish]
    exact ht.reported o (mem_running_finish.mp ho).1
  given h hh := by
    rw [handles_finish]
    exact ht.given h (mem_underway_finish.mp hh).1
  distinct := by
    obtain ⟨-, h⟩ | ⟨o, -, -, h⟩ := finish_cases t now handle
    · rw [h]
      exact ht.distinct
    · rw [h]
      exact ht.distinct.sublist (List.filter_sublist.map _)

/-- The phase that a finish ends is taken out of the running ones once. -/
theorem Ordered.perm_ended (ht : t.Ordered) {o : OpenPhase} (ho : o ∈ t.running) (now : Nat) :
    t.running.Perm (o :: (t.ended now o).running) := by
  have heq : t.running.erase o = (t.ended now o).running := by
    rw [ht.distinct.of_map.erase_eq_filter]
    refine List.filter_congr fun r hr => ?_
    have : r.handle = o.handle → r = o := List.inj_on_of_nodup_map ht.distinct hr ho
    grind
  exact heq ▸ List.perm_cons_erase ho

-- --------------------------------------------------------------------
-- What a sequence of calls does

theorem after_start (now : Nat) (name : Bytes) (cs : List Call) :
    t.after (.start now name :: cs) = (t.start now name).1.after cs := rfl

theorem after_finish (now : Nat) (handle : Int) (cs : List Call) :
    t.after (.finish now handle :: cs) = (t.finish now handle).after cs := rfl

theorem lt_handle_of_mem_starts {cs : List Call} {s : Start} (hs : s ∈ starts t cs) :
    t.handles < s.handle := by
  induction cs generalizing t with
  | nil => cases hs
  | cons c cs ih =>
    cases c with
    | start now name =>
      cases hs with
      | head => exact Nat.lt_succ_self _
      | tail _ hs => exact Nat.lt_of_succ_lt (ih hs)
    | finish now handle => simpa using ih hs

theorem nodup_handles (t : Timer) (cs : List Call) : ((starts t cs).map Start.handle).Nodup := by
  induction cs generalizing t with
  | nil => exact .nil
  | cons c cs ih =>
    cases c with
    | start now name =>
      refine List.nodup_cons.mpr ⟨fun h => ?_, ih _⟩
      obtain ⟨s, hs, heq⟩ := List.mem_map.mp h
      exact absurd heq (lt_handle_of_mem_starts hs).ne'
    | finish now handle => exact ih _

theorem names_after {ns : List Bytes} (hns : t.names = ns.eraseDups) (cs : List Call) :
    (t.after cs).names = (ns ++ (starts t cs).map Start.name).eraseDups := by
  induction cs generalizing t ns with
  | nil => simpa [starts, after] using hns
  | cons c cs ih =>
    cases c with
    | start now name =>
      have hstart : (t.start now name).1.names = (ns ++ [name]).eraseDups := by
        rw [names_start, eraseDups_concat, hns]
        simp
      rw [after_start, ih hstart]
      simp [starts]
    | finish now handle => exact ih ((names_finish now handle).trans hns)

/-- What runs after the calls was running before or was started, and was not finished since. -/
theorem mem_underway_after {cs : List Call} {h : Nat} :
    h ∈ (t.after cs).underway ↔ (h ∈ t.underway ∧ cs.any (Call.finishes h) = false) ∨
      ∃ s ∈ starts t cs, s.handle = h ∧ s.isFinished = false := by
  induction cs generalizing t with
  | nil => simp [after, starts]
  | cons c cs ih =>
    cases c with
    | start now name =>
      rw [after_start, ih, underway_start, List.mem_append, or_and_right, or_assoc]
      simp only [starts, List.any_cons, Call.finishes, Bool.false_or, List.mem_cons,
        List.not_mem_nil, or_false, exists_eq_or_imp, Start.isFinished]
      refine or_congr_right (or_congr_left ?_)
      constructor <;> rintro ⟨rfl, h⟩ <;> exact ⟨rfl, h⟩
    | finish now handle =>
      rw [after_finish, ih, mem_underway_finish]
      simp [starts, Call.finishes, and_assoc, eq_comm (a := handle)]

/-- The running phases of a name that the calls finish. -/
def closing (os : List OpenPhase) (cs : List Call) (n : Bytes) : Nat :=
  os.countP fun o => o.name = n && cs.any (Call.finishes o.handle)

theorem closing_start (os : List OpenPhase) (now : Nat) (name : Bytes) (cs : List Call)
    (n : Bytes) : closing os (.start now name :: cs) n = closing os cs n := rfl

theorem closing_finish {os : List OpenPhase} {handle : Int}
    (hos : ∀ o ∈ os, (o.handle : Int) ≠ handle) (now : Nat) (cs : List Call) (n : Bytes) :
    closing os (.finish now handle :: cs) n = closing os cs n := by
  refine List.countP_congr fun o ho => ?_
  simp [Call.finishes, (hos o ho).symm]

/-- A phase is credited for each finished one of those that ran before or were started since. -/
theorem tally_after (ht : t.Ordered) (cs : List Call) (n : Bytes) :
    (t.after cs).tally n = t.tally n + closing t.running cs n +
      (starts t cs).countP fun s => s.name = n && s.isFinished := by
  induction cs generalizing t with
  | nil => simp [after, starts, closing]
  | cons c cs ih =>
    cases c with
    | start now name =>
      let o : OpenPhase := ⟨t.handles + 1, name, now⟩
      have hclosing : closing (t.start now name).1.running cs n =
          closing t.running cs n + closing [o] cs n := List.countP_append
      have hstarts : (starts t (.start now name :: cs)).countP
          (fun s => s.name = n && s.isFinished) = closing [o] cs n +
            (starts (t.start now name).1 cs).countP fun s => s.name = n && s.isFinished :=
        @List.countP_append _ _ [_] _
      rw [after_start, ih (ht.start now name), tally_start, hclosing, closing_start, hstarts]
      omega
    | finish now handle =>
      rw [after_finish, ih (ht.finish now handle), starts]
      obtain ⟨hne, h⟩ | ⟨o, ho, rfl, h⟩ := finish_cases t now handle
      · rw [h, closing_finish hne]
      · -- `o` is no longer one of the closing phases, and is in the tally instead.
        have hrest : ∀ r ∈ (t.ended now o).running, (r.handle : Int) ≠ o.handle := by
          intro r hr
          rw [← h] at hr
          exact (mem_running_finish.mp hr).2
        have hclosing : closing t.running (.finish now o.handle :: cs) n =
            closing (t.ended now o).running cs n + if o.name = n then 1 else 0 := by
          rw [← closing_finish hrest now cs n, closing, (ht.perm_ended ho now).countP_eq,
            List.countP_cons]
          simp [Call.finishes, closing]
        rw [h, hclosing, tally_ended (ht.reported o ho)]
        omega

/-- After any calls, the handles given out are distinct, the report has each started name once in
the order of the first starts, the count of a name is the number of its handles that were finished
after their start, and a finish changes nothing unless its handle is of a start not yet finished. -/
theorem phases_by_starts (cs : List Call) :
    let t := empty.after cs
    let started := starts empty cs
    (started.map Start.handle).Nodup ∧
      (phasesIn (some t)).map PhaseTotal.name = (started.map Start.name).eraseDups ∧
      (∀ p ∈ phasesIn (some t),
        p.count = started.countP fun s => s.name = p.name && s.isFinished) ∧
      ∀ (now : Nat) (handle : Int),
        t.finish now handle = t ↔ ∀ s ∈ started, (s.handle : Int) = handle → s.isFinished := by
  intro t started
  have hnames : t.names = (started.map Start.name).eraseDups := @names_after empty [] rfl cs
  refine ⟨nodup_handles _ _, hnames, fun p hp => ?_, fun now handle => ?_⟩
  · have hnodup : t.names.Nodup := by
      rw [hnames]
      exact nodup_eraseDups _
    have hempty : empty.tally p.name + closing empty.running cs p.name = 0 := rfl
    rw [← tally_name hnodup hp, tally_after ordered_empty, hempty, Nat.zero_add]
  · rw [finish_eq_self_iff]
    constructor
    · intro hne s hs heq
      by_contra hopen
      exact hne s.handle (mem_underway_after.mpr (.inr ⟨s, hs, rfl, by simpa using hopen⟩)) heq
    · rintro hall h hh rfl
      obtain ⟨hh, -⟩ | ⟨s, hs, rfl, hopen⟩ := mem_underway_after.mp hh
      · cases hh
      · simp [hall s hs rfl] at hopen

end Restyler.Timer
