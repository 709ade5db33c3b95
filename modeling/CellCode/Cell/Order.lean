import CellCode.Cell.Basic
import Std.Data.HashSet

/-!
# The distinct cells of a tree

Cells with one digest count as one cell. `Cell.distinct` collects the digests below a cell,
and `Cell.parentsFirst` lists every distinct cell below some roots once, each before all of
its references. Both walk the tree in order and pass over what they have met before.
-/

namespace CellCode.Cell

/-! ## Counting -/

/-- Adds the digests below the cell's references, leaving out the cell's own. -/
def collectBelow : Cell → Std.HashSet Digest → Std.HashSet Digest
  | data _, seen => seen
  | link cell ref, seen =>
    let seen := collectBelow cell seen
    if seen.contains ref.digest then seen else collectBelow ref (seen.insert ref.digest)

/-- The digests of the cell and of all cells below it. -/
def distinct (cell : Cell) : Std.HashSet Digest :=
  collectBelow cell ((∅ : Std.HashSet Digest).insert cell.digest)

/-- The number of different cells in the tree. -/
def distinctCount (cell : Cell) : Nat := cell.distinct.size

/-! ## Parents first -/

/-- The state of a walk: the digests met, and the cells left behind with all below them,
    last one first. -/
structure Walk where
  seen : Std.HashSet Digest
  order : List Cell

namespace Walk

/-- A walk that has met nothing. -/
def start : Walk := ⟨∅, []⟩

/-- Goes on from a walk that has met `seen` and left `order`, through all that hangs below
    the cell. -/
def below : Cell → Std.HashSet Digest → List Cell → Walk
  | data _, seen, order => ⟨seen, order⟩
  | link cell ref, seen, order =>
    match below cell seen order with
    | ⟨seen, order⟩ =>
      if seen.contains ref.digest then ⟨seen, order⟩
      else
        match below ref (seen.insert ref.digest) order with
        | ⟨seen, order⟩ => ⟨seen, ref :: order⟩

/-- Walks through the cell and all that hangs below it, unless the cell was met before. -/
def visit : Walk → Cell → Walk
  | ⟨seen, order⟩, cell =>
    if seen.contains cell.digest then ⟨seen, order⟩
    else
      match below cell (seen.insert cell.digest) order with
      | ⟨seen, order⟩ => ⟨seen, cell :: order⟩

end Walk

/-- The different cells below the roots, the roots included, parents before children. -/
def parentsFirst (roots : List Cell) : List Cell := (roots.foldl Walk.visit .start).order

end CellCode.Cell
