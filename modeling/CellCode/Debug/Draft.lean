import CellCode.Debug.Node

/-!
# Drafts of debug trees

A draft is a node that is still being changed. Drafts live in a row, and a draft that was
made the child of another stays the same draft: what is added to it later shows in its parent
too. `Drafts.finish` turns the drafts into debug trees.
-/

namespace CellCode.Debug

/-- A child of a draft: a finished node, or another draft by its place in the row. -/
inductive Draft.Child
  | node (node : Node)
  | draft (index : Nat)

/-- A node that is still being changed. -/
structure Draft where
  offsets : List (Int × Position)
  children : List Draft.Child
  deriving Inhabited

/-- Drafts in a row. -/
abbrev Drafts := Array Draft

namespace Drafts

/-- Drafts that start as the given nodes. -/
def ofNodes (nodes : List Node) : Drafts :=
  (nodes.map fun n => ⟨n.offsets, n.children.map .node⟩).toArray

/-- Takes over the starts and children of a draft whose content was added from bit `offset` on. -/
def inlined (drafts : Drafts) (target : Nat) (offset : Int) (source : Nat) : Drafts :=
  let other := drafts.getD source default
  drafts.modify target fun d =>
    ⟨d.offsets ++ other.offsets.map fun (o, p) => (o + offset, p), d.children ++ other.children⟩

/-- Takes a draft as the child for one more reference. -/
def append (drafts : Drafts) (target source : Nat) : Drafts :=
  drafts.modify target fun d => { d with children := d.children ++ [.draft source] }

/-- The tree of a draft, drafts nested at most `depth` deep. -/
def tree (drafts : Drafts) : (depth : Nat) → Nat → Node
  | 0, _ => .empty
  | depth + 1, index =>
    let d := drafts.getD index default
    .mk d.offsets <| d.children.map fun
      | .node n => n
      | .draft i => drafts.tree depth i

/-- The trees of all drafts. -/
def finish (drafts : Drafts) : List Node :=
  (List.range drafts.size).map (drafts.tree (drafts.size + 1))

end Drafts

end CellCode.Debug
