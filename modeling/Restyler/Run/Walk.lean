import Restyler.Disk

/-!
# Walking a directory

The nodes below a directory in the order of the tree, which is component by component. Directories
named `node_modules` or with a leading dot are not entered; the directory that the walk starts from
is, whatever its name. A file is selected by the extension of its name.
-/

namespace Restyler

/-- A node that a walk comes to, by the names that lead to it from the root of the walk. -/
inductive Visit where
  /-- A directory, or a file that is not selected. -/
  | pass (names : List Bytes)
  | file (names : List Bytes) (path : Bytes)
  /-- A directory that cannot be listed. -/
  | refused (names : List Bytes) (e : OsError)
  deriving DecidableEq

def Visit.names : Visit → List Bytes
  | .pass names | .file names _ | .refused names _ => names

namespace Walk

/-- Whether a node lies strictly below a directory. -/
def isBelow (directory names : List Bytes) : Bool :=
  directory.isPrefixOf names && directory.length < names.length

def isSkipped (name : Bytes) : Bool :=
  name = bytes "node_modules" || (1 < name.length && name.head? = some Byte.dot)

/-- The path of a node below the directory that was given as `root`. -/
def pathBelow (root : Bytes) (names : List Bytes) : Bytes :=
  Path.join root (joinWith Path.root names)

/-- Why a directory cannot be opened by a path: the path is too long, or it is not permitted. -/
def obstacle? (path : Bytes) (permitted : Bool) : Option Errno :=
  if maxPathLength < path.length then some .nameTooLong
  else if permitted then none
  else some .accessDenied

/-- A directory that cannot be opened is refused. -/
def listing (names : List Bytes) (path : Bytes) (permitted : Bool) : List Visit :=
  match obstacle? path permitted with
  | none => []
  | some e => [.refused names ⟨"open", path, e⟩]

/-- The visits of one node, given by the names that lead to it from the root of the walk. Where it
is not `reached`, the directory that it is in can be listed and not be searched. -/
def visitsOf (root : Bytes) (extensions : List Bytes) (names : List Bytes) (node : Node)
    (reached : Bool) : List Visit :=
  if names.dropLast.any isSkipped then []
  else
    let path := pathBelow root names
    match node with
    | .file .. =>
      [if extensions.contains (Path.extension path) then .file names path else .pass names]
    | .dir mode =>
      .pass names ::
        if names.getLast?.any isSkipped then [] else listing names path (reached && mode.readable)

/-- The nodes strictly below a place, by the names that lead to them. -/
def nodesBelow (t : Tree) (l : Location) : List (List Bytes × Node) :=
  t.nodes.filterMap fun (k, n) =>
    match l.isPrefixOf? k with
    | some [] => none
    | some names => some (names, n)
    | none => none

/-- All visits of a walk from the directory at `l`, which was given as `root`. -/
def visits (t : Tree) (l : Location) (mode : Mode) (root : Bytes) (extensions : List Bytes) :
    List Visit :=
  .pass [] :: listing [] root mode.readable ++
    (nodesBelow t l).flatMap fun (names, node) =>
      visitsOf root extensions names node (t.permits (l ++ names.dropLast) Mode.searchable)

/-- A walk from a removed directory: it is still there to be visited, and cannot be listed. -/
def visitsOfRemoved (root : Bytes) : List Visit :=
  [.pass [], .refused [] ⟨"readdirent", root, .noEntry⟩]

end Walk

end Restyler
