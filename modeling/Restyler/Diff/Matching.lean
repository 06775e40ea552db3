import Restyler.Bytes

/-!
# Matching lines

Two sequences of lines are aligned by their longest common run, then the parts before and after it
in the same way. A run is found from seeds: lines that occur too often in a long second sequence
are no seeds, but a run that was found without them is extended over them. Of two runs of one
length the earlier one wins, in the first sequence before the second.
-/

namespace Restyler.Diff

/-- The lines of a text with their newlines; only the last may lack one. -/
def terminated (s : Bytes) : List Bytes :=
  s.foldr (fun b ls =>
    if b = Byte.newline then [b] :: ls
    else match ls with
      | [] => [[b]]
      | l :: ls => (b :: l) :: ls) []

/-- `size` equal lines, at line `before` of one sequence and line `after` of the other. -/
structure Block where
  before : Nat
  after : Nat
  size : Nat
  deriving DecidableEq

def commonPrefixLength : List Bytes → List Bytes → Nat
  | x :: xs, y :: ys => if x = y then commonPrefixLength xs ys + 1 else 0
  | _, _ => 0

/-- The places where `x` stands, counted from `n`. -/
def placesOf (x : Bytes) : Nat → List Bytes → List Nat
  | _, [] => []
  | n, y :: ys => if y == x then n :: placesOf x (n + 1) ys else placesOf x (n + 1) ys

/-- A line of the first sequence with the places of the second sequence where it can seed a run. -/
structure Seed where
  line : Bytes
  places : List Nat
  deriving DecidableEq

/-- A line seeds runs wherever it stands, unless the second sequence has 200 lines or more and holds
it more than once in a hundred lines. -/
def Seed.ofLine (ys : List Bytes) (x : Bytes) : Seed :=
  let here := placesOf x 0 ys
  ⟨x, if 200 ≤ ys.length && ys.length / 100 + 1 < here.length then [] else here⟩

/-- The places from `lo` to before `hi`, counted from `lo`. -/
def Seed.placesWithin (s : Seed) (lo hi : Nat) : List Nat :=
  (s.places.filter fun j => lo ≤ j && j < hi).map (· - lo)

/-- The length of the run that ends directly before place `j`. -/
def runBefore (runs : List (Nat × Nat)) : Nat → Nat
  | 0 => 0
  | j + 1 => (runs.lookup j).getD 0

/-- Takes the run of length `run.2` that ends at lines `i` and `run.1` if it is longer. -/
def Block.improve (i : Nat) (best : Block) (run : Nat × Nat) : Block :=
  if best.size < run.2 then ⟨i + 1 - run.2, run.1 + 1 - run.2, run.2⟩ else best

/-- Goes through the first sequence from line `i`, with the runs that end on the line before. Of the
second sequence the lines from `lo` to before `hi` are looked at. -/
def longestSeeded (lo hi : Nat) : Nat → List Seed → List (Nat × Nat) → Block → Block
  | _, [], _, best => best
  | i, x :: xs, runs, best =>
    let runs := (x.placesWithin lo hi).map fun j => (j, runBefore runs j + 1)
    longestSeeded lo hi (i + 1) xs runs (runs.foldl (Block.improve i) best)

/-- The longest run of seeds, extended both ways over equal lines. The lines `ys` are those from
place `lo` on. -/
def longestRun (lo : Nat) (xs : List Seed) (ys : List Bytes) : Block :=
  let best := longestSeeded lo (lo + ys.length) 0 xs [] ⟨0, 0, 0⟩
  let back :=
    commonPrefixLength ((xs.take best.before).reverse.map Seed.line) (ys.take best.after).reverse
  let ahead :=
    commonPrefixLength ((xs.drop (best.before + best.size)).map Seed.line)
      (ys.drop (best.after + best.size))
  ⟨best.before - back, best.after - back, back + best.size + ahead⟩

/-- A part of an edit script: lines that stay, or lines that give way to others. -/
inductive Op where
  | keep (lines : List Bytes)
  | change (removed added : List Bytes)
  deriving DecidableEq

def Op.before : Op → List Bytes
  | .keep ls => ls
  | .change removed _ => removed

def Op.after : Op → List Bytes
  | .keep ls => ls
  | .change _ added => added

def changeOf (xs ys : List Bytes) : List Op := if xs = [] ∧ ys = [] then [] else [.change xs ys]

/-- The script around the longest run. Each level takes at least one line from the first sequence,
so as many levels as it has lines are enough. The lines `ys` are those from place `lo` on. -/
def scriptWithin : Nat → Nat → List Seed → List Bytes → List Op
  | 0, _, xs, ys => changeOf (xs.map Seed.line) ys
  | n + 1, lo, xs, ys =>
    let m := longestRun lo xs ys
    if m.size = 0 then changeOf (xs.map Seed.line) ys
    else
      scriptWithin n lo (xs.take m.before) (ys.take m.after) ++
        .keep (((xs.drop m.before).take m.size).map Seed.line) ::
          scriptWithin n (lo + m.after + m.size) (xs.drop (m.before + m.size))
            (ys.drop (m.after + m.size))

def script (xs ys : List Bytes) : List Op :=
  scriptWithin xs.length 0 (xs.map (Seed.ofLine ys)) ys

end Restyler.Diff
