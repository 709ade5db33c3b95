import CellCode.Cell.Order
import CellCode.Checksum
import CellCode.Container.Error
import Std.Data.HashMap

/-!
# Writing containers

A container is a byte string that holds a list of root cells and all cells below them, each
different cell once and before its references. Cells refer to each other by position in that
list, in as many bytes as the number of cells needs. In order a container holds

* the magic number, a byte of flags with the width of positions, and the width of sizes;
* the numbers of cells, roots and absent cells, and the size of the cells' part;
* the positions of the roots;
* each cell: its two descriptor bytes, its bits, the positions of its references;
* a checksum of everything before it, unless it was left out.
-/

namespace CellCode.Container

-- Powers are those of the standard library, whatever else is in scope.
attribute [local instance (high)] instPowNat

/-- The bytes that start a container. -/
def magic : List UInt8 := [0xb5, 0xee, 0x9c, 0x72]

/-- The least number of bytes, at least one, that hold the number. -/
def byteWidth (n : Nat) : Nat :=
  if n < 256 then 1 else byteWidth (n / 256) + 1

/-- The number in `width` bytes, most significant first. -/
def bigEndian : (width : Nat) → Nat → List UInt8
  | 0, _ => []
  | width + 1, n => UInt8.ofNat (n / 256 ^ width) :: bigEndian width n

/-- The number in `width` bytes, least significant first. -/
def littleEndian : (width : Nat) → Nat → List UInt8
  | 0, _ => []
  | width + 1, n => UInt8.ofNat n :: littleEndian width (n / 256)

/-- The position of each cell, by digest. -/
abbrev Positions := Std.HashMap Digest Nat

/-- Numbers the cells in order. -/
def positions (cells : List Cell) : Positions :=
  cells.zipIdx.foldl (fun table (cell, i) => table.insert cell.digest i) ∅

/-- The position of a cell in `width` bytes. -/
def positionBytes (table : Positions) (width : Nat) (cell : Cell) : List UInt8 :=
  bigEndian width (table.getD cell.digest 0)

/-- A cell as the container holds it. -/
def cellBytes (table : Positions) (width : Nat) (cell : Cell) : List UInt8 :=
  Cell.descriptors cell.bits cell.refCount ++ cell.bits.toTaggedBytes ++
    cell.refs.flatMap (positionBytes table width)

/-- The container before its checksum, given the cells in order. -/
def body (cells roots : List Cell) (checksum : Bool) : List UInt8 :=
  let table := positions cells
  let width := byteWidth cells.length
  let payload := cells.flatMap (cellBytes table width)
  let sizeWidth := byteWidth payload.length
  magic ++ [UInt8.ofNat ((if checksum then 0x40 else 0) + width), UInt8.ofNat sizeWidth] ++
    bigEndian width cells.length ++ bigEndian width roots.length ++ bigEndian width 0 ++
    bigEndian sizeWidth payload.length ++ roots.flatMap (positionBytes table width) ++ payload

/-- Writes a container that holds the roots and all cells below them. -/
def write (roots : List Cell) (checksum : Bool) : Except ContainerError (List UInt8) :=
  if roots.isEmpty then .error .noRoots
  else
    let cells := Cell.parentsFirst roots
    let width := byteWidth cells.length
    if 256 ^ width ≤ roots.length then .error (.tooManyRoots roots.length width)
    else
      let bytes := body cells roots checksum
      .ok (if checksum then bytes ++ littleEndian 4 (Checksum.crc32c bytes).toNat else bytes)

end CellCode.Container
