import PrometheusRing.Adt.BinarySearchTree

/-!
# The picture of a tree

`print_tree` draws every subtree as a box of lines of one width, the boxes of the subtrees side by side under the
key of their root. A line is the list of its characters.
-/

namespace PrometheusRing.BinarySearchTree

/-- `c * n`: nothing for a negative number. -/
def times (c : Char) (n : Int) : List Char := List.replicate n.toNat c

/-- What `_build_tree_string` returns: the lines, their width, and where the root's text starts and ends in the
first one. -/
structure Box where
  lines : List (List Char)
  width : Nat
  rootStart : Int
  rootEnd : Int
  deriving DecidableEq

namespace Box

/-- The line at an index, blank if the box has fewer lines. -/
def line (b : Box) (i : Nat) : List Char := b.lines[i]?.getD (times ' ' b.width)

/-- What the branch to the left sub-box adds to the two lines of the root. -/
def leftBranch (b : Box) : List Char × List Char :=
  if b.width > 0 then
    let lRoot := (b.rootStart + b.rootEnd) / 2 + 1
    (times ' ' (lRoot + 1) ++ times '_' (b.width - lRoot), times ' ' lRoot ++ ['/'] ++ times ' ' (b.width - lRoot))
  else ([], [])

/-- What the branch to the right sub-box adds to the two lines of the root. -/
def rightBranch (b : Box) : List Char × List Char :=
  if b.width > 0 then
    let rRoot := (b.rootStart + b.rootEnd) / 2
    (times '_' rRoot ++ times ' ' (b.width - rRoot + 1), times ' ' rRoot ++ ['\\'] ++ times ' ' (b.width - rRoot))
  else ([], [])

/-- The lines of two boxes, side by side. -/
def beside (l r : Box) (gap : List Char) : List (List Char) :=
  (List.range (max l.lines.length r.lines.length)).map fun i => l.line i ++ gap ++ r.line i

end Box

variable {κ ν : Type} [ToString κ]

def nodeRepr (currIndex : Nat) (includeIndex : Bool) (delimiter : String) (key : κ) : List Char :=
  if includeIndex then (toString currIndex ++ delimiter ++ toString key).toList else (toString key).toList

/-- `_build_tree_string` -/
def buildTreeString (includeIndex : Bool) (delimiter : String) : BinarySearchTree κ ν → Nat → Box
  | nil, _ => ⟨[], 0, 0, 0⟩
  | node l k _ r, currIndex =>
      let nodeRepr := nodeRepr currIndex includeIndex delimiter k
      let lBox := buildTreeString includeIndex delimiter l (2 * currIndex + 1)
      let rBox := buildTreeString includeIndex delimiter r (2 * currIndex + 2)
      let line1 := lBox.leftBranch.1 ++ nodeRepr ++ rBox.rightBranch.1
      let line2 := lBox.leftBranch.2 ++ times ' ' nodeRepr.length ++ rBox.rightBranch.2
      let newRootStart : Int := if lBox.width > 0 then lBox.width + 1 else 0
      let gapSize := nodeRepr.length + (if lBox.width > 0 then 1 else 0) + if rBox.width > 0 then 1 else 0
      { lines := line1 :: line2 :: lBox.beside rBox (times ' ' gapSize)
        width := line1.length
        rootStart := newRootStart
        rootEnd := newRootStart + nodeRepr.length - 1 }

/-- `print_tree`: the lines that it prints. -/
def printTree (t : BinarySearchTree κ ν) : List String :=
  (t.buildTreeString false "-" 0).lines.map String.ofList

end PrometheusRing.BinarySearchTree
