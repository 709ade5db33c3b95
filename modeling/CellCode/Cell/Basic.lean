import CellCode.Bits.Hex
import CellCode.Digest

/-!
# Cells

A cell is a bit string together with an ordered list of references to other cells. The type
grows a cell one reference at a time: `Cell.data bits` has none, and `Cell.link cell ref` is
`cell` with `ref` as one more, last reference. `Cell.mk bits refs` builds a cell from both
parts at once, and `Cell.bits` and `Cell.refs` take it apart again.

* `mk_bits_refs`   a cell is determined by its bits and references
* `bits_mk`, `refs_mk`
* `Cell.induction`   induction over the references

Every cell carries its depth and a summary with its digest, both worked out when the cell is
made. The digest covers the bits and the depths and digests of the references, and stands for the
cell wherever the library asks whether two cells are the same.

The type itself bounds neither a cell's size nor its depth. `Cell.Fits` and `Cell.ShallowRefs`
are the bounds that `Cell.make` checks; builders keep to the first.
-/

namespace CellCode

-- Sums are those of the standard library, whatever else is in scope.
attribute [local instance (high)] Zero.ofOfNat0

namespace Cell

/-- What a digest is taken of, and the digest itself: the bits of a cell, and the depth and digest
    of each reference. -/
structure Summary where
  bits : Bits
  children : List (Nat × Digest)
  digest : Digest
  deriving DecidableEq

/-- The two descriptor bytes of a cell: the number of references, and the number of bits in
    half-bytes, odd when the last byte is tagged. -/
def descriptors (bits : Bits) (refCount : Nat) : List UInt8 :=
  [UInt8.ofNat refCount, UInt8.ofNat (bits.length / 8 + (bits.length + 7) / 8)]

/-- A depth in two bytes. -/
def depthBytes (depth : Nat) : List UInt8 := [UInt8.ofNat (depth / 256), UInt8.ofNat depth]

/-- The bytes whose digest identifies a cell. -/
def representation (bits : Bits) (children : List (Nat × Digest)) : List UInt8 :=
  descriptors bits children.length ++ bits.toTaggedBytes ++
    children.flatMap (fun child => depthBytes child.1) ++
    children.flatMap (fun child => child.2.toBytes)

namespace Summary

/-- The summary of a cell with these bits and children. -/
def of (bits : Bits) (children : List (Nat × Digest)) : Summary where
  bits := bits
  children := children
  digest := Digest.sha256 (representation bits children)

/-- The summary after one more reference. -/
def push (s : Summary) (depth : Nat) (digest : Digest) : Summary :=
  of s.bits (s.children ++ [(depth, digest)])

end Summary

end Cell

/-- A bit string with an ordered list of references. -/
inductive Cell
  /-- Bits without references. -/
  | data (bits : Bits)
  /-- A cell with one more, last reference. -/
  | link (cell ref : Cell)
with
  /-- The longest way down through references. -/
  @[computed_field] depth : Cell → Nat
    | .data _ => 0
    | .link cell ref => max cell.depth (ref.depth + 1)
  /-- What the digest covers, and the digest. -/
  @[computed_field] summary : Cell → Cell.Summary
    | .data bits => Cell.Summary.of bits []
    | .link cell ref => cell.summary.push ref.depth ref.summary.digest
  deriving DecidableEq

namespace Cell

instance : Inhabited Cell := ⟨data []⟩

/-! ## Parts -/

/-- The bits of a cell. -/
def bits : Cell → Bits
  | data bits => bits
  | link cell _ => cell.bits

/-- The references of a cell in order. -/
def refs : Cell → List Cell
  | data _ => []
  | link cell ref => cell.refs ++ [ref]

/-- The number of references. -/
def refCount : Cell → Nat
  | data _ => 0
  | link cell _ => cell.refCount + 1

/-- The number of bits. -/
def bitLength (cell : Cell) : Nat := cell.bits.length

/-- The cell with these bits and references. -/
def mk (bits : Bits) (refs : List Cell) : Cell := refs.foldl link (data bits)

/-- The digest that identifies the cell. -/
def digest (cell : Cell) : Digest := cell.summary.digest

/-- The digest in hexadecimal. -/
def hash (cell : Cell) : String := cell.digest.toHex

/-- The start of the digest, as messages name a cell. -/
def shortHash (cell : Cell) : String := cell.digest.shortHex

/-- The bits in hexadecimal. -/
def hex (cell : Cell) : String := cell.bits.toHex

/-- A one-line description. -/
def describe (cell : Cell) : String :=
  "Cell(x\x7b" ++ cell.hex ++ "\x7d, refs=" ++ toString cell.refCount ++ ")"

/-- The number of bits and cells in the whole tree, each cell counted as often as it is
    reached. Reading a tree always leaves a smaller one. -/
def size : Cell → Nat
  | data bits => bits.length + 1
  | link cell ref => cell.size + ref.size

@[simp] theorem bits_data (b : Bits) : (data b).bits = b := rfl

@[simp] theorem bits_link (c r : Cell) : (link c r).bits = c.bits := rfl

@[simp] theorem refs_data (b : Bits) : (data b).refs = [] := rfl

@[simp] theorem refs_link (c r : Cell) : (link c r).refs = c.refs ++ [r] := rfl

theorem refCount_eq (c : Cell) : c.refCount = c.refs.length := by
  induction c with
  | data b => rfl
  | link c r ih _ => simp [refCount, ih]

theorem size_eq (c : Cell) : c.size = c.bits.length + 1 + (c.refs.map size).sum := by
  induction c with
  | data b => simp [size]
  | link c r ih _ => simp [size, ih]; omega

theorem bits_foldl_link (refs : List Cell) (c : Cell) : (refs.foldl link c).bits = c.bits := by
  induction refs generalizing c with
  | nil => rfl
  | cons r refs ih => simp [ih]

theorem refs_foldl_link (refs : List Cell) (c : Cell) :
    (refs.foldl link c).refs = c.refs ++ refs := by
  induction refs generalizing c with
  | nil => simp
  | cons r refs ih => simp [ih]

@[simp] theorem bits_mk (b : Bits) (refs : List Cell) : (mk b refs).bits = b := by
  simp [mk, bits_foldl_link]

@[simp] theorem refs_mk (b : Bits) (refs : List Cell) : (mk b refs).refs = refs := by
  simp [mk, refs_foldl_link]

/-- A cell is determined by its bits and references. -/
@[simp] theorem mk_bits_refs (c : Cell) : mk c.bits c.refs = c := by
  induction c with
  | data b => rfl
  | link c r ih _ => simpa [mk, List.foldl_append] using ih

theorem ext_parts {c d : Cell} (hb : c.bits = d.bits) (hr : c.refs = d.refs) : c = d := by
  rw [← mk_bits_refs c, ← mk_bits_refs d, hb, hr]

theorem size_mk (b : Bits) (refs : List Cell) :
    (mk b refs).size = b.length + 1 + (refs.map size).sum := by
  simp [size_eq]

theorem size_pos (c : Cell) : 0 < c.size := by
  rw [size_eq]; omega

/-- A reference is smaller than the cell that holds it. -/
theorem size_lt_of_mem_refs {c r : Cell} (h : r ∈ c.refs) : r.size < c.size := by
  induction c with
  | data b => simp at h
  | link c s ih _ =>
    have := size_pos c
    have := size_pos s
    rcases (by simpa using h : r ∈ c.refs ∨ r = s) with h | rfl
    · have := ih h
      simp only [size]; omega
    · simp only [size]; omega

/-- Induction over the references of a cell. -/
@[elab_as_elim]
theorem induction {motive : Cell → Prop}
    (step : ∀ c : Cell, (∀ r ∈ c.refs, motive r) → motive c) (c : Cell) : motive c := by
  suffices h : (∀ r ∈ c.refs, motive r) ∧ motive c from h.2
  induction c with
  | data b => exact ⟨by simp, step _ (by simp)⟩
  | link c r ihc ihr =>
    have hrefs : ∀ s ∈ (link c r).refs, motive s := by
      intro s hs
      rcases (by simpa using hs : s ∈ c.refs ∨ s = r) with hs | rfl
      · exact ihc.1 s hs
      · exact ihr.2
    exact ⟨hrefs, step _ hrefs⟩

/-! ## Capacity -/

/-- The cell itself, whatever its references hold, keeps to the capacity. -/
def Fits (c : Cell) : Prop := c.bits.length ≤ maxBits ∧ c.refs.length ≤ maxRefs

instance (c : Cell) : Decidable c.Fits := inferInstanceAs (Decidable (_ ∧ _))

/-- The cell and every cell below it keep to the capacity. -/
inductive InCapacity : Cell → Prop
  | intro {c : Cell} (fits : c.Fits) (below : ∀ r ∈ c.refs, InCapacity r) : InCapacity c

theorem InCapacity.fits {c : Cell} (h : c.InCapacity) : c.Fits := by
  cases h with
  | intro fits _ => exact fits

theorem InCapacity.refs {c : Cell} (h : c.InCapacity) : ∀ r ∈ c.refs, r.InCapacity := by
  cases h with
  | intro _ below => exact below

/-! ## Depth -/

/-- The depth of each reference can be written in two bytes. -/
def ShallowRefs (c : Cell) : Prop := ∀ r ∈ c.refs, r.depth ≤ maxRefDepth

instance (c : Cell) : Decidable c.ShallowRefs := inferInstanceAs (Decidable (∀ r ∈ c.refs, _))

@[simp] theorem depth_data (b : Bits) : (data b).depth = 0 := rfl

/-- A cell with one more reference is deeper than this reference. -/
@[simp] theorem depth_link (c r : Cell) : (link c r).depth = max c.depth (r.depth + 1) := rfl

/-- A cell is deeper than its references, and no deeper than they make it. -/
theorem depth_le_iff {c : Cell} {n : Nat} : c.depth ≤ n ↔ ∀ r ∈ c.refs, r.depth < n := by
  induction c with
  | data b => simp
  | link c r ih _ =>
    simp only [depth_link, refs_link, List.mem_append, List.mem_singleton, or_imp, forall_and,
      forall_eq, ← ih]
    omega

theorem depth_lt_of_mem_refs {c r : Cell} (h : r ∈ c.refs) : r.depth < c.depth :=
  depth_le_iff.mp (Nat.le_refl _) r h

/-- The depths of the references can be written exactly if the cell is at most one deeper. -/
theorem shallowRefs_iff {c : Cell} : c.ShallowRefs ↔ c.depth ≤ maxRefDepth + 1 := by
  simp only [ShallowRefs, depth_le_iff, Nat.lt_succ_iff]

/-! ## Making cells -/

/-- Refuses more bits or references than a cell holds. -/
def checkCapacity (bits : Bits) (refs : List Cell) : Except CellError Unit :=
  if bits.length > maxBits then .error (.dataTooLong bits.length)
  else if refs.length > maxRefs then .error (.tooManyReferences refs.length)
  else .ok ()

theorem checkCapacity_eq_ok {bits : Bits} {refs : List Cell} :
    checkCapacity bits refs = .ok () ↔ (mk bits refs).Fits := by
  rw [Fits, bits_mk, refs_mk, checkCapacity]
  split
  · constructor
    · intro h; cases h
    · rintro ⟨h, _⟩; omega
  · split
    · constructor
      · intro h; cases h
      · rintro ⟨_, h⟩; omega
    · simp; omega

/-- The cell with these bits and references, if they fit and no reference is too deep. -/
def make (bits : Bits) (refs : List Cell) : Except CellError Cell := do
  checkCapacity bits refs
  match refs.find? fun ref => maxRefDepth < ref.depth with
  | some ref => throw (.referenceTooDeep ref.depth)
  | none => return mk bits refs

/-- Parts that fit make a cell, unless a reference is too deep. -/
theorem make_of_fits {bits : Bits} {refs : List Cell} (h : (mk bits refs).Fits) :
    (mk bits refs).ShallowRefs ∧ make bits refs = .ok (mk bits refs) ∨
      ∃ r ∈ refs, maxRefDepth < r.depth ∧ make bits refs = .error (.referenceTooDeep r.depth) := by
  rw [make, checkCapacity_eq_ok.mpr h, ShallowRefs, refs_mk]
  cases hfind : refs.find? fun ref => maxRefDepth < ref.depth with
  | some r =>
    exact .inr ⟨r, List.mem_of_find?_eq_some hfind, by simpa using List.find?_some hfind, rfl⟩
  | none => exact .inl ⟨by simpa using hfind, rfl⟩

/-- Making a cell succeeds exactly when the parts fit and no reference is too deep. -/
theorem make_eq_ok_iff {bits : Bits} {refs : List Cell} {c : Cell} :
    make bits refs = .ok c ↔ c = mk bits refs ∧ c.Fits ∧ c.ShallowRefs := by
  cases hcheck : checkCapacity bits refs with
  | error e =>
    rw [make, hcheck]
    constructor
    · intro h; cases h
    · rintro ⟨rfl, h, _⟩
      rw [checkCapacity_eq_ok.mpr h] at hcheck
      cases hcheck
  | ok u =>
    have hfits := checkCapacity_eq_ok.mp hcheck
    rcases make_of_fits hfits with ⟨hshallow, hmake⟩ | ⟨r, hr, hdeep, hmake⟩
    · rw [hmake]
      constructor
      · intro h
        cases h
        exact ⟨rfl, hfits, hshallow⟩
      · rintro ⟨rfl, _⟩
        rfl
    · rw [hmake]
      constructor
      · intro h; cases h
      · rintro ⟨rfl, _, h⟩
        have := h r (by simpa using hr)
        omega

/-! ## References -/

/-- The reference of this index. -/
def reference (cell : Cell) (index : Int) : Except CellError Cell :=
  match if index < 0 then none else cell.refs[index.toNat]? with
  | some ref => .ok ref
  | none => .error (.noReference index)

end Cell

end CellCode
