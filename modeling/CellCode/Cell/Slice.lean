import CellCode.Cell.Basic
import CellCode.Result

/-!
# Slices

A slice is a read cursor: a cell together with a window of its bits and a window of its
references. Reading from the front returns what was read and the slice that remains; a read
that does not fit returns an error and there is no slice to go on with, so the caller still
has the one it started from.

Counts are integers because callers may ask for any number of bits; a negative count is
refused like one that is too large. The window of a slice made by `Cell.toSlice` and the
operations below lies inside the cell (`Slice.Valid`). A window given from outside need not:
its reads are then bounded by the window and by what the cell holds.
-/

namespace CellCode

-- Sums are those of the standard library, whatever else is in scope.
attribute [local instance (high)] Zero.ofOfNat0

/-- A read cursor over a window of a cell's bits and references. -/
structure Slice where
  cell : Cell
  bitPos : Nat
  bitEnd : Nat
  refPos : Nat
  refEnd : Nat
  deriving DecidableEq

/-- The slice over a whole cell. -/
def Cell.toSlice (cell : Cell) : Slice where
  cell := cell
  bitPos := 0
  bitEnd := cell.bitLength
  refPos := 0
  refEnd := cell.refCount

namespace Slice

/-- The window lies inside the cell. -/
structure Valid (s : Slice) : Prop where
  bitPos_le : s.bitPos ≤ s.bitEnd
  bitEnd_le : s.bitEnd ≤ s.cell.bits.length
  refPos_le : s.refPos ≤ s.refEnd
  refEnd_le : s.refEnd ≤ s.cell.refs.length

/-! ## What remains -/

/-- The number of bits that remain. -/
def remainingBits (s : Slice) : Int := (s.bitEnd : Int) - s.bitPos

/-- The number of references that remain. -/
def remainingRefs (s : Slice) : Int := (s.refEnd : Int) - s.refPos

/-- The bits that remain. -/
def data (s : Slice) : Bits := (s.cell.bits.drop s.bitPos).take (s.bitEnd - s.bitPos)

/-- The references that remain. -/
def refs (s : Slice) : List Cell := (s.cell.refs.drop s.refPos).take (s.refEnd - s.refPos)

/-- The remaining bits in hexadecimal. -/
def hex (s : Slice) : String := s.data.toHex

/-- A one-line description. -/
def describe (s : Slice) : String :=
  "CellSlice(x\x7b" ++ s.hex ++ "\x7d, refs=" ++ toString s.remainingRefs ++ ")"

/-- A cell of its own with the remaining bits and references. -/
def toCell (s : Slice) : Cell := .mk s.data s.refs

/-- The number of bits and cells that remain to be read, one for the slice itself included. -/
def size (s : Slice) : Nat := (s.bitEnd - s.bitPos) + 1 + (s.refs.map Cell.size).sum

theorem size_pos (s : Slice) : 0 < s.size := by
  unfold size
  omega

/-! ## Reading bits -/

/-- Refuses a number of bits that does not remain. -/
def requireBits (s : Slice) (n : Int) : Except CellError Unit :=
  if n < 0 ∨ s.remainingBits < n then .error (.bitsPastEnd n s.bitPos s.remainingBits)
  else .ok ()

/-- The slice with its cursor `n` bits on. -/
def advance (s : Slice) (n : Nat) : Slice := { s with bitPos := s.bitPos + n }

/-- The next `n` bits, without moving. -/
def preloadBits (s : Slice) (n : Int) : Except CellError Bits := do
  s.requireBits n
  return (s.cell.bits.drop s.bitPos).take n.toNat

/-- Reads the next `n` bits. -/
def loadBits (s : Slice) (n : Int) : Except CellError (Bits × Slice) := do
  return (← s.preloadBits n, s.advance n.toNat)

/-- Skips the next `n` bits. -/
def skipBits (s : Slice) (n : Int) : Except CellError Slice := do
  s.requireBits n
  return s.advance n.toNat

/-- Reads one bit. -/
def loadBit (s : Slice) : Except CellError (Bool × Slice) := do
  let (bits, s) ← s.loadBits 1
  return (bits == [true], s)

/-- The next `n` bits as an unsigned number, without moving. -/
def preloadUInt (s : Slice) (n : Int) : Except CellError Nat := do
  return (← s.preloadBits n).toNat

/-- Reads an unsigned number of `n` bits. -/
def loadUInt (s : Slice) (n : Int) : Except CellError (Nat × Slice) := do
  return (← s.preloadUInt n, s.advance n.toNat)

/-- Reads a signed number of `n` bits; no bits are zero. -/
def loadInt (s : Slice) (n : Int) : Except CellError (Int × Slice) := do
  let (v, s) ← s.loadUInt n
  return (Bits.signed n.toNat v, s)

/-! ## Reading references -/

/-- The remaining reference of this index, without moving. -/
def getReference (s : Slice) (index : Int) : Except CellError Cell :=
  if index < 0 ∨ s.remainingRefs ≤ index then
    .error (.noRemainingReference index s.remainingRefs)
  else s.cell.reference (s.refPos + index)

/-- Reads the next reference. -/
def loadRef (s : Slice) : Except CellError (Cell × Slice) := do
  return (← s.getReference 0, { s with refPos := s.refPos + 1 })

/-- Splits off a slice of the next `bits` bits and `refs` references. -/
def loadPrefix (s : Slice) (bits refs : Int) : Except CellError (Slice × Slice) := do
  s.requireBits bits
  if refs < 0 ∨ s.remainingRefs < refs then
    throw (.referencesPastEnd refs s.remainingRefs)
  let bitEnd := s.bitPos + bits.toNat
  let refEnd := s.refPos + refs.toNat
  return ({ s with bitEnd := bitEnd, refEnd := refEnd },
    { s with bitPos := bitEnd, refPos := refEnd })

/-! ## Comparing -/

/-- Both slices have the same remaining bits. -/
def sameData (s t : Slice) : Bool := s.data == t.data

/-- Both slices have equally many remaining references, pairwise of equal digests. -/
def sameRefs (s t : Slice) : Bool :=
  s.remainingRefs == t.remainingRefs && s.refs.map Cell.digest == t.refs.map Cell.digest

/-! ## What a read leaves

Every read takes from the front, so the size of what is left goes down by what was read. -/

theorem requireBits_eq_ok {s : Slice} {n : Int} {u : Unit} (h : s.requireBits n = .ok u) :
    0 ≤ n ∧ s.bitPos + n.toNat ≤ max s.bitPos s.bitEnd := by
  unfold requireBits at h
  split at h
  · cases h
  · simp only [remainingBits] at *
    omega

@[simp] theorem refs_advance (s : Slice) (n : Nat) : (s.advance n).refs = s.refs := rfl

theorem size_advance {s : Slice} {n : Nat} (h : s.bitPos + n ≤ max s.bitPos s.bitEnd) :
    (s.advance n).size + n = s.size := by
  simp only [size, refs_advance]
  simp only [advance]
  omega

/-- Bits that remain can be read. -/
theorem preloadBits_eq_ok {s : Slice} {n : Int} {bits : Bits} (h : s.preloadBits n = .ok bits) :
    bits.length ≤ n.toNat ∧ (s.advance n.toNat).size + n.toNat = s.size := by
  obtain ⟨_, hrequire, h⟩ := (bind_eq_ok _ _ _).mp h
  cases h
  exact ⟨List.length_take_le _ _, size_advance (requireBits_eq_ok hrequire).2⟩

/-- What a read of bits returns and leaves. -/
theorem loadBits_eq_ok {s rest : Slice} {n : Int} {bits : Bits}
    (h : s.loadBits n = .ok (bits, rest)) :
    bits.length ≤ n.toNat ∧ rest.size + n.toNat = s.size := by
  obtain ⟨_, hbits, h⟩ := (bind_eq_ok _ _ _).mp h
  cases h
  exact preloadBits_eq_ok hbits

theorem skipBits_eq_ok {s rest : Slice} {n : Int} (h : s.skipBits n = .ok rest) :
    rest.size + n.toNat = s.size := by
  obtain ⟨_, hrequire, h⟩ := (bind_eq_ok _ _ _).mp h
  cases h
  exact size_advance (requireBits_eq_ok hrequire).2

theorem loadUInt_eq_ok {s rest : Slice} {n : Int} {v : Nat}
    (h : s.loadUInt n = .ok (v, rest)) : rest.size + n.toNat = s.size := by
  obtain ⟨_, hnumber, h⟩ := (bind_eq_ok _ _ _).mp h
  cases h
  obtain ⟨_, hbits, _⟩ := (bind_eq_ok _ _ _).mp hnumber
  exact (preloadBits_eq_ok hbits).2

theorem loadInt_eq_ok {s rest : Slice} {n v : Int}
    (h : s.loadInt n = .ok (v, rest)) : rest.size + n.toNat = s.size := by
  obtain ⟨_, hload, h⟩ := (bind_eq_ok _ _ _).mp h
  cases h
  exact loadUInt_eq_ok hload

/-- A read of a reference returns the first one and leaves the others. -/
theorem refs_of_loadRef {s rest : Slice} {c : Cell} (h : s.loadRef = .ok (c, rest)) :
    s.refs = c :: rest.refs ∧ rest.bitPos = s.bitPos ∧ rest.bitEnd = s.bitEnd := by
  unfold loadRef getReference at h
  split at h
  · cases h
  · rename_i hpos
    unfold Cell.reference at h
    cases hc : s.cell.refs[s.refPos]? with
    | none =>
      have hz : ((s.refPos : Int) + 0).toNat = s.refPos := by omega
      simp only [hz, hc, ite_self] at h
      cases h
    | some c' =>
      have hz : ((s.refPos : Int) + 0).toNat = s.refPos := by omega
      have hn : ¬ ((s.refPos : Int) + 0 < 0) := by omega
      rw [hz, if_neg hn, hc] at h
      cases h
      obtain ⟨hlt, rfl⟩ := List.getElem?_eq_some_iff.mp hc
      refine ⟨?_, rfl, rfl⟩
      simp only [remainingRefs] at hpos
      have hk : s.refEnd - s.refPos = (s.refEnd - (s.refPos + 1)) + 1 := by omega
      simp only [refs]
      rw [List.drop_eq_getElem_cons hlt, hk, List.take_succ_cons]

theorem loadRef_eq_ok {s rest : Slice} {c : Cell} (h : s.loadRef = .ok (c, rest)) :
    rest.size + c.size = s.size := by
  obtain ⟨hr, hp, he⟩ := refs_of_loadRef h
  simp only [size, hr, hp, he, List.map_cons, List.sum_cons]
  omega

/-! ## The whole cell -/

@[simp] theorem data_toSlice (c : Cell) : c.toSlice.data = c.bits := by
  simp [data, Cell.toSlice, Cell.bitLength]

@[simp] theorem refs_toSlice (c : Cell) : c.toSlice.refs = c.refs := by
  simp [refs, Cell.toSlice, Cell.refCount_eq]

@[simp] theorem size_toSlice (c : Cell) : c.toSlice.size = c.size := by
  simp [size, Cell.size_eq, Cell.toSlice, Cell.bitLength, refs, Cell.refCount_eq]

theorem valid_toSlice (c : Cell) : c.toSlice.Valid where
  bitPos_le := Nat.zero_le _
  bitEnd_le := Nat.le_refl _
  refPos_le := Nat.zero_le _
  refEnd_le := by simp [Cell.toSlice, Cell.refCount_eq]

end Slice

end CellCode
