import Restyler.Bytes

/-!
# Paths as texts

Slash-separated paths, taken apart and put together without looking at any disk.
-/

namespace Restyler.Path

def root : Bytes := [Byte.slash]
def here : Bytes := [Byte.dot]
def up : Bytes := [Byte.dot, Byte.dot]

def isAbsolute (p : Bytes) : Bool := p.head? = some Byte.slash

/-- The names of a path in order; repeated slashes count once. -/
def names (p : Bytes) : List Bytes := (splitOn Byte.slash p).filter (· ≠ [])

/-- One name of a path that is being cleaned; the names so far are listed last first. -/
def cleanStep (absolute : Bool) (done : List Bytes) (name : Bytes) : List Bytes :=
  if name = here then done
  else if name = up then
    match done with
    | [] => if absolute then [] else [up]
    | last :: rest => if last = up then up :: done else rest
  else name :: done

def cleanNames (p : Bytes) : List Bytes := ((names p).foldl (cleanStep (isAbsolute p)) []).reverse

/-- The shortest path that names the same place as far as the text alone tells. -/
def clean (p : Bytes) : Bytes :=
  let body := joinWith root (cleanNames p)
  if isAbsolute p then Byte.slash :: body else if body = [] then here else body

/-- A name below a directory, cleaned. Empty parts are left out. -/
def join (dir name : Bytes) : Bytes :=
  if dir = [] then (if name = [] then [] else clean name)
  else clean (dir ++ root ++ name)

def absolute (cwd p : Bytes) : Bytes := if isAbsolute p then clean p else join cwd p

/-- What stands before the last slash, cleaned. -/
def dir (p : Bytes) : Bytes :=
  match cutLast Byte.slash p with
  | some (head, _) => clean (head ++ root)
  | none => here

/-- The last name, from its last dot on; empty if it has no dot. -/
def extension (p : Bytes) : Bytes :=
  let base := match cutLast Byte.slash p with
    | some (_, base) => base
    | none => p
  match cutLast Byte.dot base with
  | some (_, ext) => Byte.dot :: ext
  | none => []

/-- The path up to the end of each run of slashes, then the whole path. -/
def stages (p : Bytes) : List Bytes :=
  ((List.range (p.length + 1)).filter fun n =>
    n = p.length || (p[n - 1]? = some Byte.slash && p[n]? ≠ some Byte.slash && 0 < n)).map p.take

/-- The directory and the last name of a path as they are written, slashes at its end set aside. -/
def splitLast (p : Bytes) : Bytes × Bytes :=
  let p := (p.reverse.dropWhile (· = Byte.slash)).reverse
  match cutLast Byte.slash p with
  | none => (here, p)
  | some ([], name) => (root, name)
  | some (dir, name) => (dir, name)

/-- Whether a path ends in a name of one dot. -/
def endsInDot (p : Bytes) : Bool := p = here || (root ++ here).isSuffixOf p

/-- The absolute path of the place that `names` lead to. -/
def ofNames (names : List Bytes) : Bytes := Byte.slash :: joinWith root names

/-- The directories from an absolute place up to the root. -/
def ancestors : List Bytes → List (List Bytes)
  | [] => [[]]
  | name :: names => (ancestors names).map (name :: ·) ++ [[]]

end Restyler.Path
