import CellCode.Cell.Builder
import CellCode.Proofs.Cell.Reaching

/-!
# How deep cells get

A digest covers the depth of each reference in two bytes, so a cell can only be made above
references that are at most `Cell.maxRefDepth` deep. Trees are made from below, each cell after its
references. As a cell is deeper than its references, one look at the depth of a cell tells whether
any cell of its tree was too deep to be made.

* `Reaches.depth_le`   no cell below is deeper
* `makeable_iff`       the trees that can be made, cell by cell
* `Makeable.buildable` what a builder needs whose cell is to be the root of such a tree
* `tower`              cells of every depth
-/

namespace CellCode.Cell

/-- A cell that is reached is no deeper than the cell it is reached from. -/
theorem Reaches.depth_le {c d : Cell} (h : c.Reaches d) : d.depth ≤ c.depth := by
  induction h with
  | self c => exact Nat.le_refl _
  | ref hmem _ ih =>
    have := depth_lt_of_mem_refs hmem
    omega

/-- If no reference of a cell is too deep, none further down is. -/
theorem Reaches.shallowRefs {c d : Cell} (h : c.Reaches d) (hc : c.ShallowRefs) :
    d.ShallowRefs := by
  rw [shallowRefs_iff] at hc ⊢
  exact Nat.le_trans h.depth_le hc

/-- The cell and every cell below it can be made of its parts. -/
def Makeable (c : Cell) : Prop := ∀ d, c.Reaches d → make d.bits d.refs = .ok d

/-- A tree can be made if it keeps to the capacity and its root is not too deep. -/
theorem makeable_iff {c : Cell} : c.Makeable ↔ c.InCapacity ∧ c.depth ≤ maxRefDepth + 1 := by
  have hmake (d : Cell) : make d.bits d.refs = .ok d ↔ d.Fits ∧ d.ShallowRefs := by
    rw [make_eq_ok_iff, mk_bits_refs, and_iff_right rfl]
  constructor
  · intro h
    refine ⟨?_, shallowRefs_iff.mp ((hmake c).mp (h c (.self c))).2⟩
    -- The capacity is that of each cell of the tree, so it is shown from below.
    induction c using Cell.induction with
    | step c ih =>
      have hfits := ((hmake c).mp (h c (.self c))).1
      exact .intro hfits fun r hr => ih r hr fun d hd => h d (.ref hr hd)
  · rintro ⟨hcapacity, hdepth⟩ d hd
    have hshallow := hd.shallowRefs (shallowRefs_iff.mpr hdepth)
    exact (hmake d).mpr ⟨(hd.inCapacity hcapacity).fits, hshallow⟩

theorem Makeable.reaches {c d : Cell} (h : c.Makeable) (hd : c.Reaches d) : d.Makeable := by
  rw [makeable_iff] at h ⊢
  exact ⟨hd.inCapacity h.1, Nat.le_trans hd.depth_le h.2⟩

theorem Makeable.refs {c : Cell} (h : c.Makeable) : ∀ r ∈ c.refs, r.Makeable :=
  fun r hr => h.reaches (.ref hr (.self r))

theorem Makeable.fits {c : Cell} (h : c.Makeable) : c.Fits := (makeable_iff.mp h).1.fits

/-- What has been collected for such a tree can be built. -/
theorem Makeable.buildable {b : Builder} (h : b.cell.Makeable) : b.Buildable :=
  Builder.buildable_iff.mpr ⟨h.fits, shallowRefs_iff.mpr (makeable_iff.mp h).2⟩

/-- What has been built is such a tree, if its references keep to the capacity. -/
theorem makeable_of_buildable {b : Builder} (h : b.Buildable) (hcapacity : b.cell.InCapacity) :
    b.cell.Makeable :=
  makeable_iff.mpr ⟨hcapacity, shallowRefs_iff.mp (Builder.buildable_iff.mp h).2⟩

/-! ## Deep cells -/

/-- An empty cell on top of `height` others, each the only reference of the next one. -/
def tower : (height : Nat) → Cell
  | 0 => data []
  | height + 1 => mk [] [tower height]

@[simp] theorem depth_tower (height : Nat) : (tower height).depth = height := by
  induction height with
  | zero => rfl
  | succ height ih =>
    show max 0 ((tower height).depth + 1) = height + 1
    rw [ih, Nat.zero_max]

theorem inCapacity_tower (height : Nat) : (tower height).InCapacity := by
  induction height with
  | zero => exact .intro (by decide) nofun
  | succ height ih =>
    refine .intro ⟨by simp [tower], by simp [tower, maxRefs]⟩ fun r hr => ?_
    rw [tower, refs_mk, List.mem_singleton] at hr
    rwa [hr]

/-- A tower can be made if it is at most one deeper than a reference may be. -/
theorem makeable_tower {height : Nat} (h : height ≤ maxRefDepth + 1) : (tower height).Makeable :=
  makeable_iff.mpr ⟨inCapacity_tower height, by rwa [depth_tower]⟩

end CellCode.Cell
