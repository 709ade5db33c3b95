import CellCode.Text.Quoted

/-!
# What can go wrong with cells

A cell has room for `Cell.maxBits` bits and `Cell.maxRefs` references, and its digest for the
depth of a reference up to `Cell.maxRefDepth`. `CellError` names each way in which a cell, a
cursor over one, a builder or a dictionary of cells can be misused; `CellError.message` words it
and `CellError.kind` says which family it belongs to.
-/

namespace CellCode

/-- The most bits a cell holds. -/
def Cell.maxBits : Nat := 1023

/-- The most references a cell holds. -/
def Cell.maxRefs : Nat := 4

/-- The greatest depth of a reference. A digest covers the depth of each reference in two
    bytes. -/
def Cell.maxRefDepth : Nat := 65535

/-- The three ways in which a dictionary label is written. -/
inductive LabelForm
  | short
  | long
  | same
  deriving DecidableEq, Repr

/-- The form's name in messages. -/
def LabelForm.name : LabelForm → String
  | .short => "short"
  | .long => "long"
  | .same => "same"

/-- Misuse of a cell, a slice, a builder or a dictionary. -/
inductive CellError
  /-- A cell was to hold more bits than fit. -/
  | dataTooLong (bits : Nat)
  /-- A cell was to hold more references than fit. -/
  | tooManyReferences (refs : Nat)
  /-- A cell was to hold a reference too deep for the two bytes of its depth. -/
  | referenceTooDeep (depth : Nat)
  /-- A builder has no room for this many bits. -/
  | noRoomForBits (bits spare : Int)
  /-- A builder has no room for this many references. -/
  | noRoomForReferences (refs spare : Int)
  /-- A read of `count` bits, where fewer remain or the count is negative. -/
  | bitsPastEnd (count : Int) (offset : Nat) (remaining : Int)
  /-- A cell without a reference of this index. -/
  | noReference (index : Int)
  /-- A slice without a remaining reference of this index. -/
  | noRemainingReference (index remaining : Int)
  /-- A prefix of more references than remain. -/
  | referencesPastEnd (count remaining : Int)
  /-- A value outside the range of an unsigned field. -/
  | unsignedRange (value width : Int)
  /-- A value outside the range of a signed field. -/
  | signedRange (value width : Int)
  /-- More bits than the bytes hold, or a negative number of them. -/
  | bitsOutOfBytes (count : Int) (bytes : Nat)
  /-- A text that is no hexadecimal bit string. -/
  | invalidHex (text : String)
  /-- A tagged text in which no bit is set. -/
  | missingTag (text : String)
  /-- A dictionary label longer than the key bits that remain. -/
  | labelTooLong (form : LabelForm) (length : Nat) (remaining : Int)
  /-- A dictionary key that its width cannot hold. -/
  | keyRange (key width : Int)
  /-- A field of negative width. -/
  | negativeWidth
  deriving DecidableEq, Repr

namespace CellError

/-- The families of errors, as callers tell them apart. -/
inductive Kind
  /-- A read past the end. -/
  | underflow
  /-- A write past the capacity. -/
  | overflow
  /-- Any other misuse of cells. -/
  | misuse
  /-- Arithmetic without a result. -/
  | arithmetic
  /-- A number that does not fit into its bytes. -/
  | conversion
  deriving DecidableEq, Repr

/-- The family of an error. -/
def kind : CellError → Kind
  | dataTooLong _ | tooManyReferences _ | noRoomForBits .. | noRoomForReferences .. => .overflow
  | bitsPastEnd .. | noReference _ | noRemainingReference .. | referencesPastEnd .. => .underflow
  | negativeWidth => .arithmetic
  | referenceTooDeep _ => .conversion
  | _ => .misuse

/-- The wording of an error. -/
def message : CellError → String
  | dataTooLong bits => s!"cell data is {bits} bits, limit is {Cell.maxBits}"
  | tooManyReferences refs => s!"cell has {refs} references, limit is {Cell.maxRefs}"
  | referenceTooDeep _ => "int too big to convert"
  | noRoomForBits bits spare => s!"cannot store {bits} bits, {spare} spare"
  | noRoomForReferences refs spare => s!"cannot store {refs} references, {spare} spare"
  | bitsPastEnd count offset remaining =>
    s!"cannot read {count} bits at offset {offset}, {remaining} remaining"
  | noReference index => s!"cell has no reference #{index}"
  | noRemainingReference index remaining => s!"no reference #{index}, {remaining} remaining"
  | referencesPastEnd count remaining =>
    s!"cannot take {count} references, {remaining} remaining"
  | unsignedRange value width => s!"{value} does not fit into {width} unsigned bits"
  | signedRange value width => s!"{value} does not fit into {width} signed bits"
  | bitsOutOfBytes count bytes => s!"cannot take {count} bits out of {bytes} bytes"
  | invalidHex text => "invalid hex bitstring: " ++ Text.quoted text
  | missingTag text => "completion tag without a terminating bit: " ++ Text.quoted text
  | labelTooLong form length remaining =>
    s!"{form.name} label of {length} bits exceeds {remaining} remaining key bits"
  | keyRange key width => s!"key {key} does not fit into {width} bits"
  | negativeWidth => "negative shift count"

end CellError

end CellCode
