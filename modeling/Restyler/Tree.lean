import Restyler.Assoc
import Restyler.Bytes

/-!
# File trees

A tree assigns a node to each place. A place is the list of names from the root; the places are
kept in increasing order, name by name, so that listing a tree visits a directory, then what is
below it, then what follows it. There are no links: a place is the only way to its node.
-/

namespace Restyler

abbrev Location := List Bytes

/-- Permission bits; only those of the owner matter. -/
abbrev Mode := Nat

namespace Mode

def readable (m : Mode) : Bool := m / 0o400 % 2 = 1
def writable (m : Mode) : Bool := m / 0o200 % 2 = 1
def searchable (m : Mode) : Bool := m / 0o100 % 2 = 1

def ofFile : Mode := 0o644
def ofDirectory : Mode := 0o755

/-- What is left of the requested bits when write permission for others is masked out. -/
def masked (m : Mode) : Mode := m - (m / 0o20 % 2) * 0o20 - (m / 2 % 2) * 2

end Mode

inductive Node where
  | file (mode : Mode) (content : Bytes)
  | dir (mode : Mode)
  deriving DecidableEq

def Node.isDir : Node → Bool
  | .file .. => false
  | .dir _ => true

def Node.mode : Node → Mode
  | .file m _ => m
  | .dir m => m

structure Tree where
  nodes : List (Location × Node)
  sorted : Assoc.Sorted nodes
  deriving DecidableEq

namespace Tree

def empty : Tree := ⟨[], .nil⟩

/-- The root is a directory in every tree. -/
def get? (t : Tree) (l : Location) : Option Node :=
  if l = [] then some (.dir .ofDirectory) else Assoc.get? l t.nodes

def set (t : Tree) (l : Location) (n : Node) : Tree :=
  ⟨Assoc.insert l n t.nodes, t.sorted.insert l n⟩

theorem get?_set_self (t : Tree) {l : Location} (h : l ≠ []) (n : Node) :
    (t.set l n).get? l = some n := by
  simp [get?, set, h, Assoc.get?_insert_self]

theorem get?_set_of_ne (t : Tree) {k l : Location} (h : l ≠ k) (n : Node) :
    (t.set k n).get? l = t.get? l := by
  simp [get?, set, Assoc.get?_insert_of_ne h]

/-- Makes a directory and those above it, as far as nothing is there yet. -/
def makeDirs (t : Tree) (l : Location) : Tree :=
  (List.range (l.length + 1)).foldl (fun t n =>
    let above := l.take n
    match t.get? above with
    | some _ => t
    | none => t.set above (.dir .ofDirectory)) t

/-- Whether a node is there and its mode grants a right. -/
def permits (t : Tree) (l : Location) (right : Mode → Bool) : Bool :=
  (t.get? l).any fun n => right n.mode

def setMode (t : Tree) (l : Location) (m : Mode) : Tree :=
  match t.get? l with
  | some (.file _ c) => t.set l (.file m c)
  | some (.dir _) => t.set l (.dir m)
  | none => t

/-- Replaces the contents of a file; anything else stays as it is. -/
def setContent (t : Tree) (l : Location) (c : Bytes) : Tree :=
  match t.get? l with
  | some (.file m _) => t.set l (.file m c)
  | _ => t

/-- The files below a place, by their names from there, in the order of the tree. -/
def filesBelow (t : Tree) (l : Location) : List (Location × Bytes) :=
  t.nodes.filterMap fun (k, n) =>
    match l.isPrefixOf? k, n with
    | some rest, .file _ c => some (rest, c)
    | _, _ => none

end Tree

end Restyler
