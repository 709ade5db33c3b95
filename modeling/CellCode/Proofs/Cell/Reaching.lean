import CellCode.Cell.Slice

/-!
# The cells of a tree

A cell reaches itself and all that hangs below its references. Where cells are told apart by
their digests, no two different ones of those reached may share one.

## Key results

- `Reaches`, `ReachedFrom`: the cells below a cell, and below some roots
- `DistinctDigests`, `DistinctDigestsFrom`: no two different ones of them share a digest
- `distinctDigestsFrom_of_closed`: this can be seen from any list that has all of them
-/

namespace CellCode.Cell

/-- The cell itself, and every cell below it. -/
inductive Reaches : Cell → Cell → Prop
  | self (c : Cell) : Reaches c c
  | ref {c r d : Cell} (mem : r ∈ c.refs) (below : Reaches r d) : Reaches c d

/-- What is reached from a reached cell is reached. -/
theorem Reaches.trans {c d e : Cell} (h : c.Reaches d) (h' : d.Reaches e) : c.Reaches e := by
  induction h with
  | self c => exact h'
  | ref hmem _ ih => exact .ref hmem (ih h')

/-- What a reached cell refers to is reached as well. -/
theorem Reaches.refs {c d : Cell} (h : c.Reaches d) : ∀ r ∈ d.refs, c.Reaches r := by
  induction h with
  | self c => exact fun r hr => .ref hr (.self r)
  | ref hmem _ ih => exact fun r hr => .ref hmem (ih r hr)

/-- What is reached from a cell within the capacity keeps to it. -/
theorem Reaches.inCapacity {c d : Cell} (h : c.Reaches d) (hc : c.InCapacity) : d.InCapacity := by
  induction h with
  | self c => exact hc
  | ref hmem _ ih => exact ih (hc.refs _ hmem)

/-- A list that has what its members refer to has all that is reached from them. -/
theorem Reaches.mem_of_closed {cells : List Cell} {c d : Cell} (h : c.Reaches d)
    (closed : ∀ c ∈ cells, ∀ r ∈ c.refs, r ∈ cells) (hc : c ∈ cells) : d ∈ cells := by
  induction h with
  | self c => exact hc
  | ref hr _ ih => exact ih (closed _ hc _ hr)

/-- No two different cells of the tree share a digest. -/
def DistinctDigests (root : Cell) : Prop :=
  ∀ c d, root.Reaches c → root.Reaches d → c.digest = d.digest → c = d

/-- The cell is one of the roots or below one of them. -/
def ReachedFrom (roots : List Cell) (c : Cell) : Prop := ∃ r ∈ roots, r.Reaches c

theorem ReachedFrom.refs {roots : List Cell} {c : Cell} (h : ReachedFrom roots c) :
    ∀ r ∈ c.refs, ReachedFrom roots r := by
  intro r hr
  obtain ⟨root, hroot, hreaches⟩ := h
  exact ⟨root, hroot, hreaches.refs r hr⟩

/-- No two different cells reached from the roots share a digest. -/
def DistinctDigestsFrom (roots : List Cell) : Prop :=
  ∀ c d, ReachedFrom roots c → ReachedFrom roots d → c.digest = d.digest → c = d

/-- If it has the roots as well, it has all that is reached from them. -/
theorem ReachedFrom.mem_of_closed {roots cells : List Cell} {c : Cell} (h : ReachedFrom roots c)
    (hroots : ∀ r ∈ roots, r ∈ cells) (closed : ∀ c ∈ cells, ∀ r ∈ c.refs, r ∈ cells) :
    c ∈ cells := by
  obtain ⟨r, hr, hreaches⟩ := h
  exact hreaches.mem_of_closed closed (hroots r hr)

/-- It is enough to look at such a list. -/
theorem distinctDigestsFrom_of_closed (roots cells : List Cell) (hroots : ∀ r ∈ roots, r ∈ cells)
    (closed : ∀ c ∈ cells, ∀ r ∈ c.refs, r ∈ cells)
    (distinct : cells.Pairwise fun c d => c.digest ≠ d.digest) : DistinctDigestsFrom roots := by
  intro c d hc hd
  exact List.Pairwise.forall_of_forall_of_flip (R := fun c d => c.digest = d.digest → c = d)
    (fun _ _ _ => rfl) (distinct.imp fun hne heq => absurd heq hne)
    (distinct.imp fun hne heq => absurd heq.symm hne) (hc.mem_of_closed hroots closed)
    (hd.mem_of_closed hroots closed)

theorem distinctDigests_of_closed (root : Cell) (cells : List Cell) (hroot : root ∈ cells)
    (closed : ∀ c ∈ cells, ∀ r ∈ c.refs, r ∈ cells)
    (distinct : cells.Pairwise fun c d => c.digest ≠ d.digest) : root.DistinctDigests := by
  have hall := distinctDigestsFrom_of_closed [root] cells (by simpa using hroot) closed distinct
  intro c d hc hd
  exact hall c d ⟨root, List.mem_singleton_self root, hc⟩ ⟨root, List.mem_singleton_self root, hd⟩

end CellCode.Cell

/-- The references that a slice shows are references of its cell. -/
theorem CellCode.Slice.reaches_of_mem_refs (s : Slice) (r : Cell) (hr : r ∈ s.refs) :
    s.cell.Reaches r :=
  .ref (List.mem_of_mem_drop (List.mem_of_mem_take hr)) (.self r)
