import Restyler.Disk

/-!
# Removing directories with all that is in them

A removal takes out what is at and below a place, each directory after what is in it. It goes on
past what may not be taken out: that stays, with the directories above it, and the first such node
is what the removal reports. A working directory that is taken out is lost.
-/

namespace Restyler

namespace Tree

/-- Whether anything lies below a place. -/
def isOccupied (t : Tree) (l : Location) : Bool :=
  t.nodes.any fun (k, _) => l.isPrefixOf k && k ≠ l

/-- Whether a removal from `l` on may not take out the node that `names` lead to: a directory on the
way cannot be listed and searched, or the one that the node is in cannot be changed. -/
def holds (t : Tree) (l : Location) (names : List Bytes) : Bool :=
  !t.permits (l ++ names).dropLast Mode.writable ||
    (List.range names.length).any fun n =>
      !t.permits (l ++ names.take n) fun m => m.readable && m.searchable

/-- The nodes at and below `l` that a removal may not take out. -/
def held (t : Tree) (l : Location) : List Location :=
  t.nodes.filterMap fun (k, _) =>
    match l.isPrefixOf? k with
    | some names => if t.holds l names then some k else none
    | none => none

/-- Takes out what is at and below `l`, except what is held and the directories above that. Where
`anchored`, `l` itself stays in any case. -/
def removeAll (t : Tree) (l : Location) (anchored : Bool) : Tree :=
  let held := t.held l
  ⟨t.nodes.filter fun (k, _) =>
    !l.isPrefixOf k || (anchored && k = l) || held.any k.isPrefixOf, t.sorted.filter _⟩

/-- What stopped a removal from `l` on, told from the tree that it left: the call, the names from
`l` to the node, and the cause. A directory in which something is left is stopped by that; `e` is
the cause where only `l` is left. -/
def obstacle (t : Tree) (l : Location) (e : Errno) : Option (String × List Bytes × Errno) :=
  t.nodes.findSome? fun (k, n) =>
    match l.isPrefixOf? k with
    | none => none
    | some names =>
      let reached := names = [] || t.permits k.dropLast Mode.searchable
      if !reached || (n.isDir && !n.mode.readable) then some ("openfdat", names, .accessDenied)
      else if n.isDir && t.isOccupied k then none
      else some ("unlinkat", names, if names = [] then e else .accessDenied)

end Tree

namespace Disk

/-- Takes over the tree that a removal left. The directories on the way to the working directory
that are not in it are lost. -/
def afterRemoval (d : Disk) (t : Tree) : Disk :=
  let cwd := ((Path.ancestors d.cwd).find? fun l => (t.get? l).isSome).getD []
  { tree := t, cwd, lost := d.lost + (d.cwd.length - cwd.length) }

/-- Why a directory that is named from inside does not go itself. -/
def anchor? (name : Bytes) : Option Errno :=
  if name = Path.here then some .invalidArgument
  else if name = Path.up then some .notEmpty
  else none

/-- Removes a file or an empty directory. -/
def remove (d : Disk) (p : Bytes) : Except Errno Disk :=
  match d.resolve p with
  | .error e => .error e
  | .ok (.free ..) => .error .noEntry
  | .ok (.removed ..) => .error .notEmpty
  | .ok (.found l _) =>
    match anchor? (Path.splitLast p).2 with
    | some e => .error e
    | none =>
      if !d.tree.permits l.dropLast Mode.writable then .error .accessDenied
      else if d.tree.isOccupied l then .error .notEmpty
      else .ok (d.afterRemoval (d.tree.removeAll l false))

/-- What a name leads to in a directory that has been opened. -/
def child (d : Disk) (parent : Target) (name : Bytes) : Except Errno Target :=
  if name.contains 0 then .error .invalidArgument
  else match parent with
    | .found l _ => d.tree.follow l [name]
    | .removed l depth => d.tree.followRemoved l depth [name]
    | .free .. => .error .noEntry

/-- Removes what a name leads to in a directory that has been opened as `dir`. -/
def removeFrom (d : Disk) (parent : Target) (dir name : Bytes) : Disk × Option OsError :=
  let refusal (call : String) (names : List Bytes) (e : Errno) : OsError :=
    ⟨call, joinWith Path.root (dir :: name :: names), e⟩
  match d.child parent name with
  | .error .noEntry | .ok (.free ..) | .ok (.removed ..) => (d, none)
  | .error .accessDenied => (d, some (refusal "openfdat" [] .accessDenied))
  | .error e => (d, some (refusal "unlinkat" [] e))
  | .ok (.found l _) =>
    let t := d.tree.removeAll l (anchor? name).isSome
    let stop := t.obstacle l ((anchor? name).getD .accessDenied)
    (d.afterRemoval t, stop.map fun (call, names, e) => refusal call names e)

/-- Removes whatever a path names, with all that is below it. Where nothing is, nothing is refused.
What cannot be removed in one step is removed from the directory that it is in. -/
def removeAll (d : Disk) (p : Bytes) : Disk × Option OsError :=
  if p = [] then (d, none)
  else if Path.endsInDot p then (d, some ⟨"RemoveAll", p, .invalidArgument⟩)
  else match d.remove p with
    | .ok d => (d, none)
    | .error .noEntry => (d, none)
    | .error _ =>
      let (dir, name) := Path.splitLast p
      match d.openToRead dir with
      | .ok parent => d.removeFrom parent dir name
      | .error .noEntry => (d, none)
      | .error e => (d, some ⟨"open", dir, e⟩)

end Disk

end Restyler
