import Restyler.Trace.Event

/-!
# Traces in which spans are nested

A trace is put together from parts that leave no span open: single events, parts one after the
other, and a part with the events that start and finish a span around it. `Part` says so, and keeps
account of the numbers and spans that have been given out. What makes a trace well formed follows
from how it is put together; the account tells the parts apart.
-/

namespace Restyler.Trace

-- --------------------------------------------------------------------
-- Well-formed traces

/-- The event that finishes the span that another event starts. -/
def Event.Finishes (f s : Event) : Prop :=
  f.kind = .finish ∧ f.span = s.span ∧ f.parent = s.parent ∧ f.scope = s.scope ∧ f.name = s.name

/-- Events in which each span that is started is finished, and spans do not overlap. -/
inductive Nested : List Event → Prop
  | nil : Nested []
  | mark {e : Event} {es : List Event} (hstart : e.kind ≠ .start) (hfinish : e.kind ≠ .finish)
      (hes : Nested es) : Nested (e :: es)
  | span {s f : Event} {inner es : List Event} (hs : s.kind = .start) (hf : f.Finishes s)
      (hinner : Nested inner) (hes : Nested es) : Nested (s :: inner ++ f :: es)

/-- A span is open after events by which it was started and not finished. -/
def OpenAfter (es : List Event) (id : Nat) : Prop :=
  (∃ s ∈ es, s.kind = .start ∧ s.span = id) ∧ ∀ f ∈ es, f.kind = .finish → f.span ≠ id

/-- A trace inside spans that stay open, after some numbers and spans have been given out. -/
structure WellFormed (around : List Nat) (seq spans : Nat) (es : List Event) : Prop where
  later : ∀ e ∈ es, seq < e.seq
  ordered : es.Pairwise fun e f => e.seq < f.seq
  fresh : ∀ e ∈ es, e.kind = .start → spans < e.span
  distinct : (es.filter (·.kind = .start)).Pairwise fun s s' => s.span ≠ s'.span
  /-- A span that is started is finished later on, once, and as what it was started. -/
  finished : ∀ before s after, es = before ++ s :: after → s.kind = .start →
    ∃ f, (after.filter fun e => e.kind = .finish ∧ e.span = s.span) = [f] ∧ f.Finishes s
  nested : Nested es
  parents : ∀ before e after, es = before ++ e :: after → e.parent ≠ 0 →
    e.parent ∈ around ∨ OpenAfter before e.parent

theorem Nested.append {es es' : List Event} (h : Nested es) (h' : Nested es') :
    Nested (es ++ es') := by
  induction h with
  | nil => exact h'
  | mark hstart hfinish hes ih => exact .mark hstart hfinish ih
  | span hs hf hinner hes ihinner ih =>
    rw [List.append_assoc, List.cons_append]
    exact .span hs hf hinner ih

theorem mem_split {α : Type} {xs ys before after : List α} {x : α}
    (h : xs ++ ys = before ++ x :: after) :
    (∃ more, xs = before ++ x :: more ∧ after = more ++ ys) ∨
      ∃ more, ys = more ++ x :: after ∧ before = xs ++ more := by
  rcases List.append_eq_append_iff.mp h with ⟨more, rfl, hys⟩ | ⟨more, rfl, hmore⟩
  · exact .inr ⟨more, hys, rfl⟩
  · cases more with
    | nil => exact .inr ⟨[], by simpa using hmore.symm, by simp⟩
    | cons y more =>
      obtain ⟨rfl, rfl⟩ := List.cons.inj hmore
      exact .inl ⟨more, rfl, rfl⟩

theorem eq_of_singleton {α : Type} {x y : α} {before after : List α}
    (h : [y] = before ++ x :: after) : before = [] ∧ x = y ∧ after = [] := by
  cases before with
  | nil =>
    simp only [List.nil_append, List.cons.injEq] at h
    exact ⟨rfl, h.1.symm, h.2.symm⟩
  | cons b before => simp at h

/-- A span stays open as long as no event finishes it, after the event that starts it as well. -/
theorem OpenAfter.cons {s : Event} {es : List Event} {id : Nat} (hs : s.kind = .start)
    (hstarted : s.span = id ∨ ∃ s' ∈ es, s'.kind = .start ∧ s'.span = id)
    (hopen : ∀ f ∈ es, f.kind = .finish → f.span ≠ id) : OpenAfter (s :: es) id := by
  refine ⟨?_, List.forall_mem_cons.mpr ⟨fun hfinish => ?_, hopen⟩⟩
  · rcases hstarted with hid | ⟨s', hmem, hs'⟩
    · exact ⟨s, List.mem_cons_self, hs, hid⟩
    · exact ⟨s', List.mem_cons_of_mem s hmem, hs'⟩
  · rw [hs] at hfinish
    exact absurd hfinish (by decide)

-- --------------------------------------------------------------------
-- Parts

/-- A part of a trace that leaves no span open. The spans around it stay open; the numbers are how
many events and spans have been numbered before and after it. -/
inductive Part : List Nat → Nat → Nat → List Event → Nat → Nat → Prop
  | nil {around : List Nat} {n n' k : Nat} (hn : n ≤ n') : Part around n k [] n' k
  | mark {around : List Nat} {n n' k : Nat} {e : Event} (hstart : e.kind ≠ .start)
      (hfinish : e.kind ≠ .finish) (hparent : e.parent ∈ 0 :: around) (hlow : n < e.seq)
      (hhigh : e.seq ≤ n') : Part around n k [e] n' k
  | append {around : List Nat} {n m n' k j k' : Nat} {es es' : List Event}
      (hes : Part around n k es m j) (hes' : Part around m j es' n' k') :
      Part around n k (es ++ es') n' k'
  | span {around : List Nat} {n m m' n' k k' : Nat} {s f : Event} {inner : List Event}
      (hs : s.kind = .start) (hid : s.span = k + 1) (hparent : s.parent ∈ 0 :: around)
      (hlow : n < s.seq) (hhigh : s.seq ≤ m) (hinner : Part (s.span :: around) m s.span inner m' k')
      (hf : f.Finishes s) (hlow' : m' < f.seq) (hhigh' : f.seq ≤ n') :
      Part around n k (s :: inner ++ [f]) n' k'

namespace Part

variable {around : List Nat} {n n' k k' : Nat} {es : List Event}

/-- A span without a number may as well be left out. -/
theorem mono {wider : List Nat} (h : Part around n k es n' k')
    (hsub : ∀ id ∈ around, id ∈ 0 :: wider) : Part wider n k es n' k' := by
  have hparents {around wider : List Nat} (hsub : ∀ id ∈ around, id ∈ 0 :: wider) :
      ∀ id ∈ 0 :: around, id ∈ 0 :: wider :=
    List.forall_mem_cons.mpr ⟨List.mem_cons_self, hsub⟩
  induction h generalizing wider with
  | nil hn => exact .nil hn
  | mark hstart hfinish hparent hlow hhigh =>
    exact .mark hstart hfinish (hparents hsub _ hparent) hlow hhigh
  | append hes hes' ih ih' => exact .append (ih hsub) (ih' hsub)
  | @span _ _ _ _ _ _ _ s _ _ hs hid hparent hlow hhigh hinner hf hlow' hhigh' ih =>
    refine .span hs hid (hparents hsub _ hparent) hlow hhigh (ih ?_) hf hlow' hhigh'
    intro id hmem
    rcases List.mem_cons.mp hmem with rfl | hmem
    · simp
    · rcases List.mem_cons.mp (hsub id hmem) with rfl | hmem
      · simp
      · simp [hmem]

theorem le (h : Part around n k es n' k') : n ≤ n' ∧ k ≤ k' := by
  induction h with
  | nil hn => exact ⟨hn, Nat.le_refl _⟩
  | mark hstart hfinish hparent hlow hhigh => omega
  | append hes hes' ih ih' => omega
  | span hs hid hparent hlow hhigh hinner hf hlow' hhigh' ih => omega

/-- The numbers of the events. -/
theorem seq_mem (h : Part around n k es n' k') : ∀ e ∈ es, n < e.seq ∧ e.seq ≤ n' := by
  induction h with
  | nil hn => exact nofun
  | mark hstart hfinish hparent hlow hhigh =>
    intro e he
    rw [List.mem_singleton.mp he]
    exact ⟨hlow, hhigh⟩
  | append hes hes' ih ih' =>
    intro e he
    have hle := hes.le
    have hle' := hes'.le
    rcases List.mem_append.mp he with he | he
    · have := ih e he
      omega
    · have := ih' e he
      omega
  | span hs hid hparent hlow hhigh hinner hf hlow' hhigh' ih =>
    intro e he
    have hle := hinner.le
    simp only [List.cons_append, List.mem_cons, List.mem_append, List.not_mem_nil, or_false] at he
    rcases he with rfl | he | rfl
    · omega
    · have := ih e he
      omega
    · omega

/-- The spans that the events start and finish. -/
theorem span_mem (h : Part around n k es n' k') :
    ∀ e ∈ es, e.kind = .start ∨ e.kind = .finish → k < e.span ∧ e.span ≤ k' := by
  induction h with
  | nil hn => exact nofun
  | mark hstart hfinish hparent hlow hhigh =>
    intro e he hkind
    rw [List.mem_singleton.mp he] at hkind
    exact absurd hkind (by simp [hstart, hfinish])
  | append hes hes' ih ih' =>
    intro e he hkind
    have hle := hes.le
    have hle' := hes'.le
    rcases List.mem_append.mp he with he | he
    · have := ih e he hkind
      omega
    · have := ih' e he hkind
      omega
  | span hs hid hparent hlow hhigh hinner hf hlow' hhigh' ih =>
    intro e he hkind
    have hle := hinner.le
    have hspan := hf.2.1
    simp only [List.cons_append, List.mem_cons, List.mem_append, List.not_mem_nil, or_false] at he
    rcases he with rfl | he | rfl
    · omega
    · have := ih e he hkind
      omega
    · omega

theorem ordered (h : Part around n k es n' k') : es.Pairwise fun e f => e.seq < f.seq := by
  induction h with
  | nil hn => exact .nil
  | mark => exact List.pairwise_singleton _ _
  | append hes hes' ih ih' =>
    refine List.pairwise_append.mpr ⟨ih, ih', fun e he f hf => ?_⟩
    exact Nat.lt_of_le_of_lt (hes.seq_mem e he).2 (hes'.seq_mem f hf).1
  | @span _ _ m m' _ _ _ s f inner hs hid hparent hlow hhigh hinner hf hlow' hhigh' ih =>
    have hle := hinner.le
    have hends : (inner ++ [f]).Pairwise fun e f => e.seq < f.seq := by
      refine List.pairwise_append.mpr ⟨ih, List.pairwise_singleton _ _, fun e he g hg => ?_⟩
      rw [List.mem_singleton.mp hg]
      exact Nat.lt_of_le_of_lt (hinner.seq_mem e he).2 hlow'
    refine List.pairwise_cons.mpr ⟨fun e he => ?_, hends⟩
    rcases List.mem_append.mp he with he | he
    · exact Nat.lt_of_le_of_lt hhigh (hinner.seq_mem e he).1
    · rw [List.mem_singleton.mp he]
      omega

theorem nested (h : Part around n k es n' k') : Nested es := by
  induction h with
  | nil hn => exact .nil
  | mark hstart hfinish hparent hlow hhigh => exact .mark hstart hfinish .nil
  | append hes hes' ih ih' => exact ih.append ih'
  | span hs hid hparent hlow hhigh hinner hf hlow' hhigh' ih => exact .span hs hf ih .nil

theorem distinct (h : Part around n k es n' k') :
    (es.filter (·.kind = .start)).Pairwise fun s s' => s.span ≠ s'.span := by
  have hlow {around es} {n k n' k' : Nat} (h : Part around n k es n' k') :
      ∀ e ∈ es.filter (·.kind = .start), k < e.span ∧ e.span ≤ k' := by
    intro e he
    obtain ⟨he, hkind⟩ := List.mem_filter.mp he
    exact h.span_mem e he (.inl (of_decide_eq_true hkind))
  induction h with
  | nil hn => exact .nil
  | @mark _ _ _ _ e hstart => simp [hstart]
  | append hes hes' ih ih' =>
    rw [List.filter_append]
    refine List.pairwise_append.mpr ⟨ih, ih', fun s hs s' hs' => ?_⟩
    exact Nat.ne_of_lt (Nat.lt_of_le_of_lt (hlow hes s hs).2 (hlow hes' s' hs').1)
  | @span _ _ _ _ _ _ _ s f inner hs hid hparent _ _ hinner hf _ _ ih =>
    have hfinish : ¬ f.kind = .start := by
      rw [hf.1]
      decide
    have hfilter : (s :: inner ++ [f]).filter (·.kind = .start) =
        s :: inner.filter (·.kind = .start) := by
      simp [hs, hfinish]
    rw [hfilter]
    exact List.pairwise_cons.mpr ⟨fun e he => Nat.ne_of_lt (hlow hinner e he).1, ih⟩

/-- No event outside a part finishes a span that the part starts. -/
theorem filter_finish_eq_nil (h : Part around n k es n' k') {id : Nat} (hid : id ≤ k ∨ k' < id) :
    (es.filter fun e => e.kind = .finish ∧ e.span = id) = [] := by
  refine List.filter_eq_nil_iff.mpr fun e he hmatch => ?_
  obtain ⟨hkind, rfl⟩ := of_decide_eq_true hmatch
  have := h.span_mem e he (.inr hkind)
  omega

theorem finished (h : Part around n k es n' k') :
    ∀ before s after, es = before ++ s :: after → s.kind = .start →
      ∃ f, (after.filter fun e => e.kind = .finish ∧ e.span = s.span) = [f] ∧ f.Finishes s := by
  induction h with
  | nil hn =>
    intro before s after heq
    simp at heq
  | mark hstart =>
    intro before s after heq hs
    obtain ⟨-, rfl, -⟩ := eq_of_singleton heq
    exact absurd hs hstart
  | @append _ _ _ _ _ _ _ es es' hes hes' ih ih' =>
    intro before s after heq hs
    rcases mem_split heq with ⟨more, hmore, rfl⟩ | ⟨more, hmore, rfl⟩
    · obtain ⟨f, hfilter, hf⟩ := ih before s more hmore hs
      have hspan := (hes.span_mem s (by simp [hmore]) (.inl hs)).2
      exact ⟨f, by rw [List.filter_append, hfilter, hes'.filter_finish_eq_nil (.inl hspan)]; rfl, hf⟩
    · exact ih' more s after hmore hs
  | @span _ _ _ _ _ _ _ s f inner hs hid hparent _ _ hinner hf _ _ ih =>
    intro before s' after heq hs'
    have hlast (id : Nat) : ([f].filter fun e => e.kind = .finish ∧ e.span = id) =
        if f.span = id then [f] else [] := by
      by_cases hid : f.span = id <;> simp [hf.1, hid]
    cases before with
    | nil =>
      simp only [List.cons_append, List.nil_append, List.cons.injEq] at heq
      obtain ⟨rfl, rfl⟩ := heq
      refine ⟨f, ?_, hf⟩
      rw [List.filter_append, hinner.filter_finish_eq_nil (.inl (Nat.le_refl _)), hlast,
        if_pos hf.2.1, List.nil_append]
    | cons b before =>
      simp only [List.cons_append, List.cons.injEq] at heq
      obtain ⟨rfl, heq⟩ := heq
      rcases mem_split heq with ⟨more, hmore, rfl⟩ | ⟨more, hmore, rfl⟩
      · obtain ⟨f', hfilter, hf'⟩ := ih before s' more hmore hs'
        have hspan := (hinner.span_mem s' (by simp [hmore]) (.inl hs')).1
        refine ⟨f', ?_, hf'⟩
        rw [List.filter_append, hfilter, hlast, if_neg (by rw [hf.2.1]; omega), List.append_nil]
      · obtain ⟨-, rfl, -⟩ := eq_of_singleton hmore
        rw [hf.1] at hs'
        exact absurd hs' (by decide)

theorem parents (h : Part around n k es n' k') :
    ∀ before e after, es = before ++ e :: after →
      e.parent ∈ 0 :: around ∨ OpenAfter before e.parent := by
  induction h with
  | nil hn =>
    intro before e after heq
    simp at heq
  | mark hstart hfinish hparent =>
    intro before e after heq
    obtain ⟨-, rfl, -⟩ := eq_of_singleton heq
    exact .inl hparent
  | @append _ _ _ _ _ _ _ es es' hes hes' ih ih' =>
    intro before e after heq
    rcases mem_split heq with ⟨more, hmore, rfl⟩ | ⟨more, hmore, rfl⟩
    · exact ih before e more hmore
    · -- The span was started by the second part, so the first one did not finish it.
      refine (ih' more e after hmore).imp_right fun ⟨⟨s, hs, hstart, hid⟩, hopen⟩ => ?_
      refine ⟨⟨s, List.mem_append_right _ hs, hstart, hid⟩, fun f hf hfinish => ?_⟩
      rcases List.mem_append.mp hf with hf | hf
      · have hlow := (hes'.span_mem s (by simp [hmore, hs]) (.inl hstart)).1
        have hhigh := (hes.span_mem f hf (.inr hfinish)).2
        omega
      · exact hopen f hf hfinish
  | @span around _ _ _ _ _ _ s f inner hs hid hparent _ _ hinner hf _ _ ih =>
    intro before e after heq
    cases before with
    | nil =>
      obtain ⟨rfl, -⟩ := List.cons.inj heq
      exact .inl hparent
    | cons b before =>
      simp only [List.cons_append, List.cons.injEq] at heq
      obtain ⟨rfl, heq⟩ := heq
      rcases mem_split heq with ⟨more, hmore, rfl⟩ | ⟨more, hmore, rfl⟩
      · have hinside : ∀ f ∈ before, f.kind = .finish → f.span ≠ s.span := by
          intro f hf hfinish
          have hlow := (hinner.span_mem f (by simp [hmore, hf]) (.inr hfinish)).1
          omega
        rcases ih before e more hmore with hparent | ⟨hstarted, hopen⟩
        · simp only [List.mem_cons] at hparent
          rcases hparent with hzero | hspan | haround
          · exact .inl (by simp [hzero])
          · exact .inr (hspan ▸ .cons hs (.inl rfl) hinside)
          · exact .inl (List.mem_cons_of_mem _ haround)
        · exact .inr (.cons hs (.inr hstarted) hopen)
      · obtain ⟨-, rfl, -⟩ := eq_of_singleton hmore
        exact .inl (hf.2.2.1 ▸ hparent)

theorem wellFormed (h : Part around n k es n' k') : WellFormed around n k es where
  later e he := (h.seq_mem e he).1
  ordered := h.ordered
  fresh e he hs := (h.span_mem e he (.inl hs)).1
  distinct := h.distinct
  finished := h.finished
  nested := h.nested
  parents before e after heq hne := by
    refine (h.parents before e after heq).imp_left fun hmem => ?_
    exact (List.mem_cons.mp hmem).resolve_left hne

end Part

end Restyler.Trace
