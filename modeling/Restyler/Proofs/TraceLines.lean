import Mathlib.Data.List.Nodup
import Restyler.Proofs.Defining
import Restyler.Proofs.Json
import Restyler.Trace.Session

/-!
# The trace as JSON lines

An event written as JSON is one line, and a reader of JSON gets back from it what the event says:
its numbers, the names of its kind and scope, its name and detail, and its attributes in order. A
member that was left out reads as zero or empty. So the text of a trace, cut at its newlines, gives
back the events of the trace one by one.
-/

namespace Restyler.Trace

-- --------------------------------------------------------------------
-- What a line says

/-- What an event says, apart from its time. -/
structure Record where
  seq : Nat
  kind : Bytes
  scope : Bytes
  span : Nat
  parent : Nat
  name : Bytes
  detail : Bytes
  extra : List (Bytes × Bytes)
  deriving DecidableEq

def Event.record (e : Event) : Record :=
  ⟨e.seq, e.kind.name, e.scope.name, e.span, e.parent, e.name, e.detail, e.extra⟩

def natural? : Json.Value → Option Nat
  | .number literal => number? literal
  | _ => none

def text? : Json.Value → Option Bytes
  | .string s => some s
  | _ => none

def texts? : Json.Value → Option (List (Bytes × Bytes))
  | .object ms => ms.mapM fun (key, v) => (text? v).map fun s => (key, s)
  | _ => none

/-- The value of a member, which may be absent. -/
def member? {α : Type} (read? : Json.Value → Option α) (absent : α) (name : Bytes)
    (ms : List (Bytes × Json.Value)) : Option α :=
  match Assoc.get? name ms with
  | none => some absent
  | some v => read? v

/-- The record that an object spells; no name may occur twice in it. -/
def Record.ofMembers? (ms : List (Bytes × Json.Value)) : Option Record :=
  if (ms.map Prod.fst).Nodup then do
    let seq ← member? natural? 0 (bytes "seq") ms
    let kind ← member? text? [] (bytes "kind") ms
    let scope ← member? text? [] (bytes "scope") ms
    let span ← member? natural? 0 (bytes "span_id") ms
    let parent ← member? natural? 0 (bytes "parent_id") ms
    let name ← member? text? [] (bytes "name") ms
    let detail ← member? text? [] (bytes "detail") ms
    let extra ← member? texts? [] (bytes "extra") ms
    return ⟨seq, kind, scope, span, parent, name, detail, extra⟩
  else none

def Record.read? (line : Bytes) : Option Record :=
  match Json.read? line with
  | some (.object ms) => ofMembers? ms
  | _ => none

/-- An event whose strings are valid UTF-8. -/
structure Event.IsUtf8 (e : Event) : Prop where
  name : Utf8.valid e.name = true
  detail : Utf8.valid e.detail = true
  extra : ∀ p ∈ e.extra, Utf8.valid p.1 = true ∧ Utf8.valid p.2 = true

-- --------------------------------------------------------------------
-- Members that may be left out

/-- A text with the value that it is read as. -/
abbrev Spelling := Bytes × Json.Value

def spelled (s : Bytes) : Spelling := (jsonString s, .string (Utf8.encode (Utf8.chars s)))

def numeric (n : Nat) : Spelling := (decimal n, .number (decimal n))

def attributes (extra : List (Bytes × Bytes)) : Spelling :=
  (jsonObject (extra.map fun p => jsonMember p.1 (spelled p.2).1),
    .object (extra.map fun p => (Utf8.encode (Utf8.chars p.1), (spelled p.2).2)))

/-- The members of an event with their names, `none` for those that are left out. -/
def Event.rows (e : Event) : List (Bytes × Option Spelling) :=
  [(bytes "time", some (spelled e.time.text)),
    (bytes "seq", some (numeric e.seq)),
    (bytes "kind", some (spelled e.kind.name)),
    (bytes "scope", some (spelled e.scope.name)),
    (bytes "span_id", if e.span = 0 then none else some (numeric e.span)),
    (bytes "parent_id", if e.parent = 0 then none else some (numeric e.parent)),
    (bytes "name", some (spelled e.name)),
    (bytes "detail", if e.detail = [] then none else some (spelled e.detail)),
    (bytes "extra", if e.extra = [] then none else some (attributes e.extra))]

/-- The rows that are not left out. -/
def shown (rows : List (Bytes × Option Spelling)) : List (Bytes × Spelling) :=
  rows.filterMap fun r => r.2.map fun q => (r.1, q)

theorem jsonMembers_eq (e : Event) :
    e.jsonMembers = (shown e.rows).map fun r => jsonMember r.1 r.2.1 := by
  simp only [Event.jsonMembers, shown, Event.rows, spelled, numeric, attributes]
  split_ifs <;> rfl

def rowNames : List Bytes :=
  [bytes "time", bytes "seq", bytes "kind", bytes "scope", bytes "span_id", bytes "parent_id",
    bytes "name", bytes "detail", bytes "extra"]

theorem rowNames_spec : rowNames.Nodup ∧ ∀ k ∈ rowNames, Utf8.valid k = true := by
  decide +kernel

theorem mem_shown {rows : List (Bytes × Option Spelling)} {k : Bytes} {q : Spelling} :
    (k, q) ∈ shown rows ↔ (k, some q) ∈ rows := by
  simp [shown, List.mem_filterMap]

theorem map_fst_shown (rows : List (Bytes × Option Spelling)) :
    ((shown rows).map Prod.fst).Sublist (rows.map Prod.fst) := by
  induction rows with
  | nil => exact .slnil
  | cons r rows ih =>
    obtain ⟨k, o⟩ := r
    cases o with
    | none => exact ih.cons k
    | some q => exact ih.cons_cons k

/-- The members that an object with these rows is read as. -/
def values (rows : List (Bytes × Option Spelling)) : List (Bytes × Json.Value) :=
  (shown rows).map fun r => (r.1, r.2.2)

theorem nodup_values {rows : List (Bytes × Option Spelling)} (h : (rows.map Prod.fst).Nodup) :
    ((values rows).map Prod.fst).Nodup := by
  have hnames : (values rows).map Prod.fst = (shown rows).map Prod.fst := by
    simp [values, Function.comp_def]
  rw [hnames]
  exact h.sublist (map_fst_shown rows)

theorem get?_values {rows : List (Bytes × Option Spelling)} (h : (rows.map Prod.fst).Nodup)
    {k : Bytes} {o : Option Spelling} (hget : Assoc.get? k rows = some o) :
    Assoc.get? k (values rows) = o.map Prod.snd := by
  refine Option.ext fun v => ?_
  have hmem : (k, v) ∈ values rows ↔ ∃ q : Spelling, (k, some q) ∈ rows ∧ q.2 = v := by
    simp [values, mem_shown]
  rw [Assoc.get?_eq_some_iff_of_nodup (nodup_values h), hmem]
  simp [← Assoc.get?_eq_some_iff_of_nodup h, hget]

/-- What a row says: the value that is read from its text, or the absent one. -/
def Means {α : Type} (read? : Json.Value → Option α) (absent : α) : Option Spelling → α → Prop
  | none, x => absent = x
  | some q, x => read? q.2 = some x

theorem means_unless {α : Type} {read? : Json.Value → Option α} {absent x : α} {c : Prop}
    [Decidable c] {q : Spelling} (hc : c → absent = x) (hq : read? q.2 = some x) :
    Means read? absent (if c then none else some q) x := by
  split
  · next h => exact hc h
  · exact hq

theorem Means.member?_eq {α : Type} {read? : Json.Value → Option α} {absent x : α}
    {o : Option Spelling} (hmeans : Means read? absent o x)
    {rows : List (Bytes × Option Spelling)} (h : (rows.map Prod.fst).Nodup) {k : Bytes}
    (hget : Assoc.get? k rows = some o) : member? read? absent k (values rows) = some x := by
  rw [member?, get?_values h hget]
  cases o with
  | none => exact congrArg some hmeans
  | some q => exact hmeans

-- --------------------------------------------------------------------
-- Reading a line

theorem text?_spelled {s : Bytes} (h : Utf8.valid s = true) : text? (spelled s).2 = some s :=
  congrArg some (Utf8.encode_chars h)

theorem natural?_numeric (n : Nat) : natural? (numeric n).2 = some n := number?_decimal n

theorem texts?_attributes {extra : List (Bytes × Bytes)}
    (h : ∀ p ∈ extra, Utf8.valid p.1 = true ∧ Utf8.valid p.2 = true) :
    texts? (attributes extra).2 = some extra := by
  simp only [texts?, attributes]
  induction extra with
  | nil => rfl
  | cons p extra ih =>
    obtain ⟨hp, hextra⟩ := List.forall_mem_cons.mp h
    simp [List.mapM_cons, text?_spelled hp.2, Utf8.encode_chars hp.1, ih hextra]

theorem valid_kind (k : Kind) : Utf8.valid k.name = true := by
  unfold Kind.name
  split <;> rfl

theorem valid_scope (s : Scope) : Utf8.valid s.name = true := by
  unfold Scope.name
  split <;> rfl

theorem ofMembers?_rows {e : Event} (he : e.IsUtf8) :
    Record.ofMembers? (values e.rows) = some e.record := by
  have hnodup : (e.rows.map Prod.fst).Nodup := rowNames_spec.1
  have htext {s : Bytes} (hs : Utf8.valid s = true) : Means text? [] (some (spelled s)) s :=
    text?_spelled hs
  have hseq : Means natural? 0 (some (numeric e.seq)) e.seq := natural?_numeric _
  have hspan : Means natural? 0 (if e.span = 0 then none else some (numeric e.span)) e.span :=
    means_unless Eq.symm (natural?_numeric _)
  have hparent : Means natural? 0 (if e.parent = 0 then none else some (numeric e.parent))
      e.parent := means_unless Eq.symm (natural?_numeric _)
  have hdetail : Means text? [] (if e.detail = [] then none else some (spelled e.detail))
      e.detail := means_unless Eq.symm (text?_spelled he.detail)
  have hextra : Means texts? [] (if e.extra = [] then none else some (attributes e.extra))
      e.extra := means_unless Eq.symm (texts?_attributes he.extra)
  rw [Record.ofMembers?, if_pos (nodup_values hnodup), hseq.member?_eq hnodup rfl,
    (htext (valid_kind e.kind)).member?_eq hnodup rfl,
    (htext (valid_scope e.scope)).member?_eq hnodup rfl, hspan.member?_eq hnodup rfl,
    hparent.member?_eq hnodup rfl, (htext he.name).member?_eq hnodup rfl,
    hdetail.member?_eq hnodup rfl, hextra.member?_eq hnodup rfl]
  rfl

theorem writes_attributes (extra : List (Bytes × Bytes)) :
    Json.Writes 2 (attributes extra).1 (attributes extra).2 := by
  have hvalues : ∀ r ∈ extra.map fun p => (p.1, spelled p.2), Json.Writes 1 r.2.1 r.2.2 := by
    rintro _ hr
    obtain ⟨p, -, rfl⟩ := List.mem_map.mp hr
    exact Json.writes_string p.2
  have hobject := Json.writes_object hvalues
  rwa [List.map_map, List.map_map] at hobject

theorem writes_rows (e : Event) : ∀ r ∈ shown e.rows, Json.Writes 2 r.2.1 r.2.2 := by
  have hstring (s : Bytes) : Json.Writes 2 (spelled s).1 (spelled s).2 :=
    (Json.writes_string s).mono (by decide)
  have hnumber (n : Nat) : Json.Writes 2 (numeric n).1 (numeric n).2 :=
    (Json.writes_decimal n).mono (by decide)
  rintro ⟨k, q⟩ hr
  -- One case for each row, in the order of `Event.rows`.
  have hmem := mem_shown.mp hr
  simp only [Event.rows, List.mem_cons, List.not_mem_nil, or_false, Prod.mk.injEq,
    Option.some.injEq, Option.ite_none_left_eq_some, eq_comm (a := some q)] at hmem
  rcases hmem with ⟨-, rfl⟩ | ⟨-, rfl⟩ | ⟨-, rfl⟩ | ⟨-, rfl⟩ | ⟨-, -, rfl⟩ | ⟨-, -, rfl⟩ |
    ⟨-, rfl⟩ | ⟨-, -, rfl⟩ | ⟨-, -, rfl⟩
  · exact hstring _
  · exact hnumber _
  · exact hstring _
  · exact hstring _
  · exact hnumber _
  · exact hnumber _
  · exact hstring _
  · exact hstring _
  · exact writes_attributes _

/-- The line of an event, without its newline. -/
def Event.line (e : Event) : Bytes := jsonObject e.jsonMembers

theorem render_eq (e : Event) : e.render .ndjson = e.line ++ [Byte.newline] := rfl

theorem writes_line (e : Event) : Json.Writes 3 e.line (.object (values e.rows)) := by
  have hnames : (shown e.rows).map (fun r => (Utf8.encode (Utf8.chars r.1), r.2.2)) =
      values e.rows := by
    refine List.map_congr_left fun r hr => ?_
    have hname : r.1 ∈ rowNames := (map_fst_shown e.rows).subset (List.mem_map_of_mem hr)
    rw [Utf8.encode_chars (rowNames_spec.2 r.1 hname)]
  rw [Event.line, jsonMembers_eq, ← hnames]
  exact Json.writes_object (writes_rows e)

theorem le_length_line (e : Event) : 3 ≤ e.line.length := by
  obtain ⟨s, hs⟩ := Json.exists_jsonMember (bytes "time") (jsonString e.time.text)
  obtain ⟨t, ht⟩ := Json.joinWith_head (bytes ",") hs e.jsonMembers.tail
  have hline : e.line = bytes "\x7b" ++ (Byte.quote :: t) ++ bytes "\x7d" := by
    rw [← ht]
    rfl
  have hbraces : (bytes "\x7b").length = 1 ∧ (bytes "\x7d").length = 1 := ⟨rfl, rfl⟩
  simp only [hline, List.length_append, List.length_cons, hbraces]
  omega

theorem read?_line {e : Event} (he : e.IsUtf8) : Record.read? e.line = some e.record := by
  rw [Record.read?, (writes_line e).read?_eq (le_length_line e)]
  exact ofMembers?_rows he

theorem lines_flatMap_line (es : List Event) :
    lines (es.flatMap fun e => e.render .ndjson) = es.map Event.line ++ [[]] := by
  induction es with
  | nil => rfl
  | cons e es ih =>
    rw [List.flatMap_cons, render_eq, List.append_assoc, List.singleton_append, lines,
      splitOn_append_sep, splitOn_of_notMem (writes_line e).clean.isLine, ← lines, ih]
    rfl

/-- The JSON text of an event is one line, from which a reader of JSON gets back the event. The text
of a trace is cut by its newlines into such lines, one for each event. -/
theorem ndjson_reads_back {t : Session} (hformat : t.tracer.format = .ndjson)
    (hutf8 : ∀ e ∈ t.events, e.IsUtf8) :
    (∀ e : Event, e.IsUtf8 → ∃ line, e.render .ndjson = line ++ [Byte.newline] ∧
      Byte.newline ∉ line ∧ Record.read? line = some e.record) ∧
    ∀ n, ∃ ls, lines (t.textFrom n) = ls ++ [[]] ∧
      ls.map Record.read? = (t.events.drop n).map fun e => some e.record := by
  refine ⟨fun e he => ⟨e.line, rfl, (writes_line e).clean.isLine, read?_line he⟩, fun n => ?_⟩
  refine ⟨(t.events.drop n).map Event.line, ?_, ?_⟩
  · rw [Session.textFrom, hformat]
    exact lines_flatMap_line _
  · rw [List.map_map]
    refine List.map_congr_left fun e he => ?_
    rw [Function.comp_apply, read?_line (hutf8 e (List.mem_of_mem_drop he))]

/-- An event whose text needs each kind of escape, and a trace of it. -/
def awkward : Event :=
  ⟨⟨0, 0, 0⟩, 0xFFFFFFFFFFFFFFFF, .error, .file, 0, 7, bytes "\"a\\b\"\n\u001f\u2028<é>", [],
    [(bytes "k\t", bytes "&"), (bytes "😀", [])]⟩

def awkwardTrace : Session := ⟨.stream .debug .ndjson, ⟨0, 0, 0⟩, 0, 0, [awkward, awkward]⟩

theorem isUtf8_awkward : awkward.IsUtf8 := ⟨by decide +kernel, rfl, by decide +kernel⟩

theorem ndjson_reads_back_awkward :
    awkward.IsUtf8 ∧ awkwardTrace.tracer.format = .ndjson ∧
      (∀ e ∈ awkwardTrace.events, e.IsUtf8) ∧
      (∃ line, awkward.render .ndjson = line ++ [Byte.newline] ∧ Byte.newline ∉ line ∧
        Record.read? line = some ⟨0xFFFFFFFFFFFFFFFF, bytes "error", bytes "file", 0, 7,
          bytes "\"a\\b\"\n\u001f\u2028<é>", [], [(bytes "k\t", bytes "&"), (bytes "😀", [])]⟩) ∧
      ∃ ls, lines (awkwardTrace.textFrom 0) = ls ++ [[]] ∧
        ls.map Record.read? = [some awkward.record, some awkward.record] := by
  have hutf8 : ∀ e ∈ awkwardTrace.events, e.IsUtf8 := by
    simp [awkwardTrace, isUtf8_awkward]
  obtain ⟨hline, htext⟩ := ndjson_reads_back (t := awkwardTrace) rfl hutf8
  exact ⟨isUtf8_awkward, rfl, hutf8, hline awkward isUtf8_awkward, htext 0⟩

end Restyler.Trace
