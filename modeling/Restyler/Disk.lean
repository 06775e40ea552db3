import Restyler.Failure
import Restyler.Path
import Restyler.Tree

/-!
# Calls on a disk

A tree with a working directory, and the calls that the program makes on it by path. A path is
followed name by name: each directory on the way must exist and be searchable, a name has at most
255 bytes and a path fewer than 4096, and a path that ends in a slash names a directory.

The working directory can be removed. A removed directory is empty and nothing can be made in it;
only the way up leads out of it. A directory made later at its place is another one.
-/

namespace Restyler

structure Disk where
  tree : Tree
  /-- The working directory, or the nearest directory above it that is left. -/
  cwd : Location
  /-- How many directories from there down to the working directory have been removed. -/
  lost : Nat := 0
  deriving DecidableEq

/-- Where a path leads: to a node, to a free name in a directory, or to a removed directory, `depth`
levels below the nearest one that is left. -/
inductive Target where
  | found (location : Location) (node : Node)
  | free (parent : Location) (parentMode : Mode) (name : Bytes)
  | removed (above : Location) (depth : Nat)
  deriving DecidableEq

def maxNameLength : Nat := 255
def maxPathLength : Nat := 4095

/-- Follows names from a place. -/
def Tree.follow (t : Tree) : Location → List Bytes → Except Errno Target
  | l, [] =>
    match t.get? l with
    | some n => .ok (.found l n)
    | none => .error .noEntry
  | l, name :: names =>
    match t.get? l with
    | none => .error .noEntry
    | some (.file ..) => .error .notDirectory
    | some (.dir mode) =>
      if !mode.searchable then .error .accessDenied
      else if name = Path.here then t.follow l names
      else if name = Path.up then t.follow l.dropLast names
      else if maxNameLength < name.length then .error .nameTooLong
      else match t.get? (l ++ [name]), names with
        | none, [] => .ok (.free l mode name)
        | none, _ => .error .noEntry
        | some _, names => t.follow (l ++ [name]) names

/-- Follows names from a place that lies a number of removed directories below `l`. -/
def Tree.followRemoved (t : Tree) (l : Location) : Nat → List Bytes → Except Errno Target
  | 0, names => t.follow l names
  | depth + 1, [] => .ok (.removed l (depth + 1))
  | depth + 1, name :: names =>
    if name = Path.here then t.followRemoved l (depth + 1) names
    else if name = Path.up then t.followRemoved l depth names
    else .error .noEntry

namespace Disk

/-- The path of the working directory, while that is there. -/
def workingPath (d : Disk) : Bytes := Path.ofNames d.cwd

def endsInSlash (p : Bytes) : Bool := p.getLast? = some Byte.slash

/-- The path of the working directory, as the system tells it: a removed one has none. -/
def getwd (d : Disk) : Except Failure Bytes :=
  if d.lost = 0 then .ok d.workingPath else .error (.within (bytes "getwd") (.refused .noEntry))

/-- The absolute form of a path, clean. Only a relative one needs the working directory. -/
def absolute (d : Disk) (p : Bytes) : Except Failure Bytes :=
  if Path.isAbsolute p then .ok (Path.clean p) else d.getwd.map (Path.join · p)

/-- Follows a path, a slash at its end set aside. -/
def locate (d : Disk) (p : Bytes) : Except Errno Target :=
  if p.contains 0 then .error .invalidArgument
  else if p = [] then .error .noEntry
  else if maxPathLength < p.length then .error .nameTooLong
  else if Path.isAbsolute p then d.tree.follow [] (Path.names p)
  else d.tree.followRemoved d.cwd d.lost (Path.names p)

/-- What a path names. One that ends in a slash does not name a file. -/
def resolve (d : Disk) (p : Bytes) : Except Errno Target :=
  match d.locate p with
  | .ok (.found l (.file m c)) =>
    if endsInSlash p then .error .notDirectory else .ok (.found l (.file m c))
  | other => other

/-- Attaches the call and its path to a refusal. -/
def refused {α : Type} (call : String) (p : Bytes) : Except Errno α → Except OsError α
  | .ok a => .ok a
  | .error e => .error ⟨call, p, e⟩

def stat (d : Disk) (p : Bytes) : Except OsError Node :=
  refused "stat" p do
    match ← d.resolve p with
    | .found _ n => .ok n
    | .free .. => .error .noEntry
    | .removed .. => .ok (.dir .ofDirectory)

/-- Opens what a path names for reading. -/
def openToRead (d : Disk) (p : Bytes) : Except Errno Target :=
  match d.resolve p with
  | .ok (.found l n) => if n.mode.readable then .ok (.found l n) else .error .accessDenied
  | .ok (.free ..) => .error .noEntry
  | other => other

/-- The contents of a file. A directory can be opened and then not be read. -/
def read (d : Disk) (p : Bytes) : Except OsError Bytes :=
  match d.openToRead p with
  | .error e => .error ⟨"open", p, e⟩
  | .ok (.found _ (.file _ c)) => .ok c
  | .ok _ => .error ⟨"read", p, .isDirectory⟩

/-- Opens a file for writing: it is emptied, or made with the given mode. A path that ends in a
slash is refused as a directory, whatever it leads to. -/
def openToWrite (d : Disk) (p : Bytes) (mode : Mode) (alsoRead : Bool) :
    Except OsError (Location × Disk) :=
  refused "open" p
    (match d.locate p with
    | .error e => .error e
    | .ok target =>
      if endsInSlash p then .error .isDirectory
      else match target with
        | .found _ (.dir _) | .removed .. => .error .isDirectory
        | .found l (.file m _) =>
          if m.writable && (!alsoRead || m.readable) then
            .ok (l, { d with tree := d.tree.set l (.file m []) })
          else .error .accessDenied
        | .free parent parentMode name =>
          if parentMode.writable then
            .ok (parent ++ [name],
              { d with tree := d.tree.set (parent ++ [name]) (.file mode.masked []) })
          else .error .accessDenied)

/-- Opens a file, made with the given mode if need be, and puts contents in it. -/
def write (d : Disk) (p : Bytes) (content : Bytes) (mode : Mode) : Disk × Option OsError :=
  match d.openToWrite p mode false with
  | .error e => (d, some e)
  | .ok (l, d) => ({ d with tree := d.tree.setContent l content }, none)

/-- Makes a directory in one that is there, unless it is there itself. -/
def makeDir (d : Disk) (p : Bytes) : Except OsError Disk :=
  refused "mkdir" p
    (match d.locate p with
    | .error e => .error e
    | .ok (.found _ (.dir _)) | .ok (.removed ..) => .ok d
    | .ok (.found _ (.file ..)) => .error .alreadyExists
    | .ok (.free parent mode name) =>
      if mode.writable then
        .ok { d with tree := d.tree.set (parent ++ [name]) (.dir .ofDirectory) }
      else .error .accessDenied)

/-- Makes the directory that the first path names, after those that the other paths name, unless it
is there at the start. The disk afterwards holds what was made before a refusal. -/
def makeAfter (d : Disk) : List Bytes → Disk × Option OsError
  | [] => (d, none)
  | p :: above =>
    match d.stat p with
    | .ok (.dir _) => (d, none)
    | .ok (.file ..) => (d, some ⟨"mkdir", p, .notDirectory⟩)
    | .error _ =>
      match d.makeAfter above with
      | (d, some e) => (d, some e)
      | (d, none) =>
        match d.makeDir p with
        | .ok d => (d, none)
        | .error e => (d, some e)

/-- Makes the directory that a path names, and those above it. -/
def makeDirs (d : Disk) (p : Bytes) : Disk × Option OsError := d.makeAfter (Path.stages p).reverse

end Disk

end Restyler
