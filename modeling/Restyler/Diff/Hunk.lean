import Restyler.Diff.Matching

/-!
# Hunks

An edit script is shown as hunks: changes with up to three lines of context on either side. A
stretch of more than six unchanged lines between two changes ends one hunk and starts the next.
-/

namespace Restyler.Diff

/-- Lines of a hunk, with the lines of each side that come before it. -/
structure Hunk where
  before : Nat
  after : Nat
  body : List Op
  deriving DecidableEq

namespace Hunk

def beforeLines (h : Hunk) : List Bytes := h.body.flatMap Op.before
def afterLines (h : Hunk) : List Bytes := h.body.flatMap Op.after

def push (h : Hunk) (op : Op) : Hunk := { h with body := h.body ++ [op] }

end Hunk

/-- Unchanged lines shown on either side of a change. -/
def contextLines : Nat := 3

def lastLines (n : Nat) (ls : List Bytes) : List Bytes := ls.drop (ls.length - n)

/-- Continues the hunk `h`, with `i` and `j` lines read on the two sides. -/
def hunksFrom (h : Hunk) : Nat → Nat → List Op → List Hunk
  | _, _, [] => [h]
  | i, j, .change removed added :: ops =>
    hunksFrom (h.push (.change removed added)) (i + removed.length) (j + added.length) ops
  | _, _, [.keep ls] => [h.push (.keep (ls.take contextLines))]
  | i, j, .keep ls :: ops =>
    let i := i + ls.length
    let j := j + ls.length
    if 2 * contextLines < ls.length then
      h.push (.keep (ls.take contextLines)) ::
        hunksFrom ⟨i - contextLines, j - contextLines, [.keep (lastLines contextLines ls)]⟩ i j ops
    else hunksFrom (h.push (.keep ls)) i j ops

def hunks : List Op → List Hunk
  | [] => []
  | [.keep _] => []
  | .keep ls :: ops =>
    let shown := lastLines contextLines ls
    let start := ls.length - shown.length
    hunksFrom ⟨start, start, [.keep shown]⟩ ls.length ls.length ops
  | ops => hunksFrom ⟨0, 0, []⟩ 0 0 ops

end Restyler.Diff
