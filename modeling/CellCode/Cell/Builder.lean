import CellCode.Cell.Slice

/-!
# Builders

A builder collects the bits and references of a cell to be. Every store checks that there is
room before it adds anything, so a builder that started empty never outgrows a cell. No store
looks at the depth of a reference: whether the depths can be written is found out by
`Builder.build`, when the cell is made.

* `Builder.cell`          the cell of what was collected
* `Builder.build_eq_ok`   when it can be built
* `Builder.build_of_fits` what else becomes of a builder in capacity
-/

namespace CellCode

-- Powers are those of the standard library, whatever else is in scope.
attribute [local instance (high)] instPowNat

/-- The bits and references collected for a new cell. -/
structure Builder where
  bits : Bits
  refs : List Cell
  deriving DecidableEq

namespace Builder

/-- A builder that has collected nothing. -/
def empty : Builder := ⟨[], []⟩

instance : Inhabited Builder := ⟨empty⟩

/-- The bits that still fit. -/
def spareBits (b : Builder) : Int := (Cell.maxBits : Int) - b.bits.length

/-- The references that still fit. -/
def spareRefs (b : Builder) : Int := (Cell.maxRefs : Int) - b.refs.length

/-- The builder keeps to the capacity of a cell. -/
def Fits (b : Builder) : Prop :=
  b.bits.length ≤ Cell.maxBits ∧ b.refs.length ≤ Cell.maxRefs

instance (b : Builder) : Decidable b.Fits := inferInstanceAs (Decidable (_ ∧ _))

/-- A one-line description. -/
def describe (b : Builder) : String :=
  s!"CellBuilder({b.bits.length} bits, {b.refs.length} refs)"

/-- Refuses more bits or references than still fit. -/
def checkRoom (b : Builder) (bits refs : Int) : Except CellError Unit :=
  if b.spareBits < bits then .error (.noRoomForBits bits b.spareBits)
  else if b.spareRefs < refs then .error (.noRoomForReferences refs b.spareRefs)
  else .ok ()

/-- Adds bits. -/
def storeBits (b : Builder) (bits : Bits) : Except CellError Builder := do
  b.checkRoom bits.length 0
  return { b with bits := b.bits ++ bits }

/-- Adds one bit. -/
def storeBit (b : Builder) (bit : Bool) : Except CellError Builder := b.storeBits [bit]

/-- Adds an unsigned number in a field of `width` bits. -/
def storeUInt (b : Builder) (value width : Int) : Except CellError Builder :=
  if value < 0 then .error (.unsignedRange value width)
  else if width < 0 then .error .negativeWidth
  else if 2 ^ width.toNat ≤ value then .error (.unsignedRange value width)
  else b.storeBits (.ofNat width.toNat value.toNat)

/-- Adds a signed number in a field of `width` bits; there is no signed field without bits. -/
def storeInt (b : Builder) (value width : Int) : Except CellError Builder :=
  if width = 0 then .error (.signedRange value width)
  else if width < 0 then .error .negativeWidth
  else
    let half : Int := 2 ^ (width.toNat - 1)
    if value < -half ∨ half ≤ value then .error (.signedRange value width)
    else b.storeBits (.ofInt width.toNat value)

/-- The first `count` bits of a byte string. -/
def bitsOfBytes (bytes : List UInt8) (count : Int) : Except CellError Bits :=
  if count < 0 ∨ (8 * bytes.length : Int) < count then
    .error (.bitsOutOfBytes count bytes.length)
  else .ok ((Bits.ofBytes bytes).take count.toNat)

/-- Adds the first `count` bits of a byte string. -/
def storeRaw (b : Builder) (bytes : List UInt8) (count : Int) : Except CellError Builder := do
  b.storeBits (← bitsOfBytes bytes count)

/-- Adds a reference. -/
def storeRef (b : Builder) (ref : Cell) : Except CellError Builder := do
  b.checkRoom 0 1
  return { b with refs := b.refs ++ [ref] }

/-- Adds all that remains of a slice. -/
def storeSlice (b : Builder) (s : Slice) : Except CellError Builder := do
  b.checkRoom s.remainingBits s.remainingRefs
  return { bits := b.bits ++ s.data, refs := b.refs ++ s.refs }

/-- A builder that holds the first `count` bits of a byte string. -/
def ofRaw (bytes : List UInt8) (count : Int) : Except CellError Builder :=
  empty.storeRaw bytes count

/-- A builder that holds what a cell holds. -/
def ofCell (cell : Cell) : Builder := ⟨cell.bits, cell.refs⟩

/-! ## The cell of a builder -/

/-- The cell of what was collected, however much that is and however deep. -/
def cell (b : Builder) : Cell := .mk b.bits b.refs

/-- Builds the cell of what was collected. -/
def build (b : Builder) : Except CellError Cell := Cell.make b.bits b.refs

@[simp] theorem bits_cell (b : Builder) : b.cell.bits = b.bits := Cell.bits_mk _ _

@[simp] theorem refs_cell (b : Builder) : b.cell.refs = b.refs := Cell.refs_mk _ _

@[simp] theorem cell_ofCell (c : Cell) : (ofCell c).cell = c := Cell.mk_bits_refs c

@[simp] theorem ofCell_cell (b : Builder) : ofCell b.cell = b := by simp [ofCell]

/-- The builder keeps to the capacity of a cell, and the depths of its references can be
    written. -/
def Buildable (b : Builder) : Prop := b.Fits ∧ ∀ r ∈ b.refs, r.depth ≤ Cell.maxRefDepth

theorem fits_cell {b : Builder} : b.cell.Fits ↔ b.Fits := by
  rw [Cell.Fits, bits_cell, refs_cell, Fits]

theorem buildable_iff {b : Builder} : b.Buildable ↔ b.cell.Fits ∧ b.cell.ShallowRefs := by
  rw [fits_cell, Cell.ShallowRefs, refs_cell, Buildable]

/-- Building succeeds exactly for these builders. -/
theorem build_eq_ok {b : Builder} {c : Cell} : b.build = .ok c ↔ b.Buildable ∧ c = b.cell := by
  rw [build, Cell.make_eq_ok_iff, buildable_iff, and_comm]
  constructor
  · rintro ⟨h, rfl⟩; exact ⟨h, rfl⟩
  · rintro ⟨h, rfl⟩; exact ⟨h, rfl⟩

/-- A builder in capacity is built, unless a reference is too deep. -/
theorem build_of_fits {b : Builder} (h : b.Fits) :
    b.Buildable ∧ b.build = .ok b.cell ∨
      ∃ r ∈ b.refs, Cell.maxRefDepth < r.depth ∧ b.build = .error (.referenceTooDeep r.depth) := by
  rcases Cell.make_of_fits (fits_cell.mpr h) with ⟨hshallow, hmake⟩ | hdeep
  · exact .inl ⟨buildable_iff.mpr ⟨fits_cell.mpr h, hshallow⟩, hmake⟩
  · exact .inr hdeep

/-- A builder in capacity whose only reference is too deep cannot be built. -/
theorem build_of_deep {b : Builder} {r : Cell} (h : b.Fits) (hrefs : b.refs = [r])
    (hdeep : Cell.maxRefDepth < r.depth) : b.build = .error (.referenceTooDeep r.depth) := by
  rcases build_of_fits h with ⟨⟨_, hshallow⟩, _⟩ | ⟨s, hs, _, herror⟩
  · have := hshallow r (by simp [hrefs])
    omega
  · rw [hrefs, List.mem_singleton] at hs
    rw [herror, hs]

end Builder

end CellCode
