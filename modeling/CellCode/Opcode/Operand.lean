import CellCode.Packing

/-!
# Instructions

An instruction is a mnemonic with operands. An operand may be a piece of nested code; what
stands for that code depends on where the instruction is met, so operands and instructions
have it as a parameter: the cell that holds it while code is being decoded, its place in a
code store afterwards, an assembled fragment while code is being encoded.
-/

namespace CellCode

/-- An operand, with nested code given as a `κ`. -/
inductive Operand (κ : Type)
  /-- A whole number. -/
  | integer (value : Int)
  /-- A place on the stack. -/
  | stack (index : Int)
  /-- A control register. -/
  | control (index : Int)
  /-- A constant bit string. -/
  | bits (bits : Bits)
  /-- A cell that is not looked into. -/
  | cell (cell : Cell)
  /-- Nested code, with the cell it came from if it had one of its own. -/
  | code (body : κ) (source : Option Cell)
  /-- A mark: the instruction's cell is a jump table. -/
  | marker

namespace Operand

/-- The nested code of an operand. -/
def body? {κ : Type} : Operand κ → Option κ
  | code body _ => some body
  | _ => none

/-- Whether the operand is the mark of a jump table. -/
def isMarker {κ : Type} : Operand κ → Bool
  | marker => true
  | _ => false

/-- Equal operands, given when nested codes are equal. Where a nested code came from does not
    matter, and cells are equal when their digests are. -/
def sameBy {κ : Type} (same : κ → κ → Bool) : Operand κ → Operand κ → Bool
  | integer v, integer w => v == w
  | stack i, stack j => i == j
  | control i, control j => i == j
  | bits x, bits y => x == y
  | cell c, cell d => c.digest == d.digest
  | code a _, code b _ => same a b
  | marker, marker => true
  | _, _ => false

end Operand

/-- A mnemonic with its operands. -/
structure Instruction (κ : Type) where
  name : String
  operands : List (Operand κ)

namespace Instruction

variable {κ : Type}

/-- The nested codes of an instruction in order. -/
def bodies (i : Instruction κ) : List κ := i.operands.filterMap Operand.body?

/-- Whether the instruction's cell is marked as a jump table. -/
def isMarked (i : Instruction κ) : Bool := i.operands.any Operand.isMarker

/-- The instruction with its cell marked as a jump table. -/
def mark (i : Instruction κ) : Instruction κ := { i with operands := i.operands ++ [.marker] }

/-- Equal mnemonics and operands, given when nested codes are equal. -/
def sameBy (same : κ → κ → Bool) (a b : Instruction κ) : Bool :=
  a.name == b.name && a.operands.isEqv b.operands (Operand.sameBy same)

end Instruction

end CellCode
