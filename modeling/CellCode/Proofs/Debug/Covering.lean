import CellCode.Proofs.Packing.Runs
import Mathlib.Data.List.Forall2

/-!
# Debug trees that fit their cells

A debug tree follows a cell when it has no more children than there are references and each child
follows its reference. The map of such a tree and its cell can always be made. The tree covers the
cell when moreover no child is missing anywhere.

A fragment whose node has a child for each reference can be put behind another one: the children
still stand in the places of their references then. Below these children some may be missing.

* `Debug.Map.ofCell_of_follows`   the map can be made
* `Fragment.Aligned`              the debug tree of a fragment covers what it holds
* `Fragment.InStep`               it has a child for each reference, and they follow the references
-/

namespace CellCode

namespace Debug

/-- The node has a child for each reference, and the children cover the references. -/
inductive Node.Covers : Node → Cell → Prop
  | intro {node : Node} {c : Cell} (same : Node → Cell → Prop)
      (nested : ∀ child r, same child r → Covers child r)
      (children : List.Forall₂ same node.children c.refs) : Covers node c

/-- A node covers a cell exactly when its children cover the references. -/
theorem Node.covers_iff (node : Node) (c : Cell) :
    node.Covers c ↔ List.Forall₂ Node.Covers node.children c.refs := by
  constructor
  · rintro ⟨same, nested, children⟩
    exact children.imp nested
  · intro h
    exact .intro Node.Covers (fun _ _ h => h) h

/-- The node has no more children than there are references, and each child follows its own. -/
inductive Node.Follows : Node → Cell → Prop
  | intro {node : Node} {c : Cell} (few : node.children.length ≤ c.refs.length)
      (nested : ∀ pair ∈ node.children.zip c.refs, Follows pair.1 pair.2) : Follows node c

/-- A node without children follows every cell. -/
theorem Node.follows_leaf (offsets : List (Int × Position)) (c : Cell) :
    (mk offsets []).Follows c := .intro (Nat.zero_le _) nofun

theorem Node.follows_empty (c : Cell) : empty.Follows c := follows_leaf [] c

/-- Children that follow all references make a node that follows the cell. -/
theorem Node.follows_of_forall₂ (node : Node) (c : Cell)
    (h : List.Forall₂ Node.Follows node.children c.refs) : node.Follows c :=
  .intro (Nat.le_of_eq h.length_eq) fun _ hpair => List.forall₂_zip h hpair

/-- A node that covers a cell follows it. -/
theorem Node.Covers.follows {node : Node} {c : Cell} (h : node.Covers c) : node.Follows c := by
  induction h with
  | @intro node c same _ children ih =>
    exact node.follows_of_forall₂ c (children.imp ih)

namespace Map

/-- Children that follow their references are added, if each of them can be added by itself. -/
private theorem addChildren_of_follows (children : List Node) (refs : List Cell) (m : Map)
    (h : ∀ pair ∈ children.zip refs, ∀ m, ∃ m', addNode m pair.2 pair.1 = .ok m') :
    ∃ m', addChildren m refs children = .ok m' := by
  -- Induction on the children; they stop first, or together with the references.
  induction children generalizing refs m with
  | nil => exact ⟨m, by rw [addChildren]; rfl⟩
  | cons child children ih =>
    cases refs with
    | nil => exact ⟨m, by rw [addChildren]; rfl⟩
    | cons r refs =>
      rw [List.zip_cons_cons, List.forall_mem_cons] at h
      obtain ⟨m₁, hm₁⟩ := ih refs m h.2
      obtain ⟨m₂, hm₂⟩ := h.1 m₁
      refine ⟨m₂, ?_⟩
      rw [addChildren, hm₁]
      exact hm₂

/-- A node that follows a cell is added to any map. -/
theorem addNode_of_follows (node : Node) (c : Cell) (m : Map) (h : node.Follows c) :
    ∃ m', addNode m c node = .ok m' := by
  induction h generalizing m with
  | @intro node c few _ ih =>
    obtain ⟨offsets, nodes⟩ := node
    -- The guard is about the number of children, which are no more than the references.
    have hlength : nodes.length ≤ c.refCount := by
      rw [Cell.refCount_eq]
      exact few
    rw [addNode, if_neg (by omega)]
    exact addChildren_of_follows nodes c.refs _ ih

/-- The map of a cell can be made from a tree that follows it. -/
theorem ofCell_of_follows (node : Node) (c : Cell) (h : node.Follows c) :
    ∃ m, ofCell c node = .ok m :=
  addNode_of_follows node c .empty h

end Map

end Debug

namespace Fragment

/-- The debug node has a child for each reference, and they cover the references. -/
def Aligned (f : Fragment) : Prop := List.Forall₂ Debug.Node.Covers f.dbg.children f.builder.refs

/-- An aligned fragment covers the cell it is built into. -/
theorem Aligned.covers {f : Fragment} (h : f.Aligned) : f.dbg.Covers f.builder.cell := by
  rw [Debug.Node.covers_iff, Builder.cell, Cell.refs_mk]
  exact h

theorem aligned_empty : empty.Aligned := .nil

theorem Aligned.takeOver (f g : Fragment) (hf : f.Aligned) (hg : g.Aligned) :
    (f.takeOver g).Aligned :=
  List.rel_append hf hg

/-- The cell linked to becomes a reference, and its node a child. -/
theorem Aligned.linkTo (f g : Fragment) (hf : f.Aligned) (hg : g.Aligned) :
    (f.linkTo g).Aligned :=
  List.rel_append hf (.cons hg.covers .nil)

/-- The debug node has a child for each reference, and they follow the references. -/
def InStep (f : Fragment) : Prop := List.Forall₂ Debug.Node.Follows f.dbg.children f.builder.refs

/-- A fragment in step follows the cell it is built into. -/
theorem InStep.follows {f : Fragment} (h : f.InStep) : f.dbg.Follows f.builder.cell := by
  apply Debug.Node.follows_of_forall₂
  rw [Builder.cell, Cell.refs_mk]
  exact h

theorem inStep_empty : empty.InStep := .nil

/-- References that are taken over stay in step with their children. -/
theorem InStep.takeOver (f g : Fragment) (hf : f.InStep) (hg : g.InStep) :
    (f.takeOver g).InStep :=
  List.rel_append hf hg

/-- A link stays in step: the cell behind it is followed by its own node. -/
theorem InStep.linkTo (f g : Fragment) (hf : f.InStep) (hg : g.InStep) : (f.linkTo g).InStep :=
  List.rel_append hf (.cons hg.follows .nil)

/-- A fragment is built into its cell and the debug map of its node. -/
theorem build_eq_ok (f : Fragment) (result : Cell × Debug.Map) :
    f.build = .ok result ↔ f.builder.Buildable ∧ result.1 = f.builder.cell ∧
      Debug.Map.ofCell f.builder.cell f.dbg = .ok result.2 := by
  simp only [Fragment.build, bind_eq_ok, mapError_eq_ok, Builder.build_eq_ok]
  constructor
  · rintro ⟨_, ⟨hbuild, rfl⟩, m, hm, h⟩
    cases h
    exact ⟨hbuild, rfl, hm⟩
  · rintro ⟨hbuild, hcell, hm⟩
    exact ⟨_, ⟨hbuild, rfl⟩, _, hm, by rw [← hcell]; rfl⟩

/-- A fragment in step has a cell and a debug map, if the cell can be built. -/
theorem InStep.build {f : Fragment} (h : f.InStep) (hbuild : f.builder.Buildable) :
    ∃ m, f.build = .ok (f.builder.cell, m) := by
  obtain ⟨m, hm⟩ := Debug.Map.ofCell_of_follows f.dbg f.builder.cell h.follows
  exact ⟨m, (f.build_eq_ok _).mpr ⟨hbuild, rfl, hm⟩⟩

/-- If the cell cannot be built, this is what goes wrong. -/
theorem build_eq_error {f : Fragment} {e : CellError} (h : f.builder.build = .error e) :
    f.build = .error (.cell e) := by
  rw [Fragment.build, h]
  rfl

/-- What is covered is followed, so an aligned fragment is in step. -/
theorem Aligned.inStep {f : Fragment} (h : f.Aligned) : f.InStep :=
  h.imp fun _ _ => Debug.Node.Covers.follows

end Fragment

end CellCode
