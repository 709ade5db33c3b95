import CellCode.Container.Writer

/-!
# Reading containers

The reader takes the parts of a container in order, as `CellCode.Container.Writer` lists
them. It also takes a table of offsets, which the writer leaves out, and skips it. Cells may
refer only to later cells, so they are built from the last to the first. How deep a cell gets on
the way is left open: the reader gives cells of every depth.
-/

namespace CellCode.Container

/-- The first `n` items and the rest, if there are that many. -/
def splitExactly : (n : Nat) → List α → Option (List α × List α)
  | 0, items => some ([], items)
  | _ + 1, [] => none
  | n + 1, item :: items => (splitExactly n items).map fun (front, rest) => (item :: front, rest)

/-- The bytes not yet read, and how many were read before them. -/
structure Cursor where
  position : Nat
  rest : List UInt8

/-- A step of reading: it moves the cursor on, or says why it cannot. -/
abbrev Read := StateT Cursor (Except ContainerError)

/-- Reads `n` bytes. -/
def take (n : Nat) : Read (List UInt8) := do
  let cursor ← get
  match splitExactly n cursor.rest with
  | none => throw (.unexpectedEnd cursor.position)
  | some (bytes, rest) =>
    set { position := cursor.position + n, rest := rest : Cursor }
    return bytes

/-- The number that the bytes write, most significant first. -/
def ofBigEndian (bytes : List UInt8) : Nat := bytes.foldl (fun n b => 256 * n + b.toNat) 0

/-- The number that the bytes write, least significant first. -/
def ofLittleEndian (bytes : List UInt8) : Nat := ofBigEndian bytes.reverse

/-- Reads a number of `width` bytes. -/
def number (width : Nat) : Read Nat := return ofBigEndian (← take width)

/-- Reads `n` items, one after the other. -/
def many (item : Read α) : (n : Nat) → Read (List α)
  | 0 => return []
  | n + 1 => do
    let first ← item
    let others ← many item n
    return first :: others

/-- A cell whose references are still positions. -/
structure RawCell where
  bits : Bits
  refs : List Nat

/-- Reads one cell. -/
def rawCell (width : Nat) : Read RawCell := do
  let d1 ← number 1
  let d2 ← number 1
  if d1 / 8 % 2 = 1 then throw .exoticCell
  let refCount := d1 % 8
  if refCount > Cell.maxRefs then throw (.declaredReferences refCount)
  let filled := Bits.ofBytes (← take ((d2 + 1) / 2))
  let bits ←
    if d2 % 2 = 1 then
      match filled.untag? with
      | none => throw .missingTag
      | some bits => pure bits
    else pure filled
  let refs ← many (number width) refCount
  return { bits, refs }

/-- The cell that a position stands for, seen from cell `index`, whose later cells are given. -/
def resolve (index : Nat) (later : List Cell) (reference : Nat) : Except ContainerError Cell :=
  match if reference ≤ index then none else later[reference - index - 1]? with
  | none => .error (.outOfOrder index reference)
  | some cell => .ok cell

/-- Builds the cells from `index` on, the last one first. -/
def buildFrom (index : Nat) : List RawCell → Except ContainerError (List Cell)
  | [] => .ok []
  | raw :: others => do
    let later ← buildFrom (index + 1) others
    let refs ← raw.refs.mapM (resolve index later)
    return .mk raw.bits refs :: later

/-- The cell of a root's position. -/
def root (cells : List Cell) (index : Nat) : Except ContainerError Cell :=
  match cells[index]? with
  | none => .error (.rootRange index)
  | some cell => .ok cell

/-- Reads a container up to the end of its content: the positions of the roots, the cells,
    and whether a checksum follows. -/
def content : Read (List Nat × List RawCell × Bool) := do
  if (← take 4) ≠ magic then throw .badMagic
  let flags ← number 1
  let width := flags % 8
  if width < 1 ∨ 4 < width then throw (.referenceSize width)
  let sizeWidth ← number 1
  if sizeWidth < 1 ∨ 8 < sizeWidth then throw (.offsetSize sizeWidth)
  let cellCount ← number width
  let rootCount ← number width
  let absent ← number width
  if absent ≠ 0 then throw .absentCells
  let _ ← number sizeWidth
  let roots ← many (number width) rootCount
  if flags / 128 % 2 = 1 then
    let _ ← take (cellCount * sizeWidth)
  let cells ← many (rawCell width) cellCount
  return (roots, cells, flags / 64 % 2 = 1)

/-- Reads the roots that a container holds. -/
def read (bytes : List UInt8) : Except ContainerError (List Cell) := do
  let ((roots, raw, checksum), cursor) ← content.run ⟨0, bytes⟩
  if checksum then
    let (expected, _) ← (take 4).run cursor
    if (Checksum.crc32c (bytes.take cursor.position)).toNat ≠ ofLittleEndian expected then
      throw .checksumMismatch
  let cells ← buildFrom 0 raw
  roots.mapM (root cells)

/-- The root of this index. -/
def readRoot (bytes : List UInt8) (index : Int) : Except ContainerError Cell := do
  let roots ← read bytes
  match if index < 0 then none else roots[index.toNat]? with
  | none => throw (.noRoot index)
  | some cell => return cell

/-- A container of its own for one reference of a root. -/
def extract (bytes : List UInt8) (index rootIndex : Int) : Except ContainerError (List UInt8) := do
  let cell ← readRoot bytes rootIndex
  match cell.reference index with
  | .error _ => throw (.noReference rootIndex index)
  | .ok child => write [child] true

end CellCode.Container
