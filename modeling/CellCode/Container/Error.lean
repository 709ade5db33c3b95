/-!
# What can go wrong with containers

`ContainerError` names each way in which a container cannot be written, read, or taken apart.
-/

namespace CellCode

/-- A container that cannot be written, read, or taken apart. -/
inductive ContainerError
  /-- There is nothing to write. -/
  | noRoots
  /-- The number of roots does not fit the width of the container's numbers. -/
  | tooManyRoots (count width : Nat)
  /-- The bytes end inside the container. -/
  | unexpectedEnd (position : Nat)
  /-- The first bytes are not a container's. -/
  | badMagic
  /-- A width of references outside one to four bytes. -/
  | referenceSize (size : Nat)
  /-- A width of offsets outside one to eight bytes. -/
  | offsetSize (size : Nat)
  /-- The container leaves cells out. -/
  | absentCells
  /-- A cell of a special kind. -/
  | exoticCell
  /-- A cell that declares more references than a cell holds. -/
  | declaredReferences (count : Nat)
  /-- A tagged last byte in which no bit is set. -/
  | missingTag
  /-- The checksum does not match the content. -/
  | checksumMismatch
  /-- A reference that does not point to a later cell. -/
  | outOfOrder (cell reference : Nat)
  /-- A root index beyond the cells. -/
  | rootRange (index : Nat)
  /-- A container without a root of this index. -/
  | noRoot (index : Int)
  /-- A root without a reference of this index. -/
  | noReference (root index : Int)
  /-- A state without the reference that holds its code. -/
  | noCode
  deriving DecidableEq, Repr

/-- The wording of an error. -/
def ContainerError.message : ContainerError → String
  | noRoots => "cannot serialize an empty root list"
  | tooManyRoots count width => s!"{count} roots do not fit into {width} bytes"
  | unexpectedEnd position => s!"unexpected end of container at byte {position}"
  | badMagic => "bad container magic"
  | referenceSize size => s!"invalid reference size {size}"
  | offsetSize size => s!"invalid offset size {size}"
  | absentCells => "absent cells are not supported"
  | exoticCell => "exotic cells are not supported"
  | declaredReferences count => s!"cell declares {count} references"
  | missingTag => "augmented cell data without a terminating bit"
  | checksumMismatch => "crc32c mismatch"
  | outOfOrder cell reference => s!"cell {cell} references cell {reference} out of order"
  | rootRange index => s!"root index {index} out of range"
  | noRoot index => s!"container has no root #{index}"
  | noReference root index => s!"root #{root} has no reference #{index}"
  | noCode => "state init has no code reference"

end CellCode
