/-!
# The structure of a listing

A listing is a list of items: instructions with operands and nested code, and raw bits. Cells
and dictionaries are operands that hold items of their own. Lines are kept where a message or
a debug position may need them.
-/

namespace CellCode.Listing

/-- Raw bits, as they were written, and their line. -/
structure Blob where
  line : Nat
  literal : String
  deriving DecidableEq, Repr

mutual

/-- A line of a listing. -/
inductive Item
  /-- An instruction with its operands, and code in braces behind them. -/
  | instruction (line : Nat) (name : String) (operands : List Term) (blocks : List (List Item))
  /-- Raw bits. -/
  | blob (blob : Blob)

/-- An operand. -/
inductive Term
  | integer (value : Int)
  | stack (index : Nat)
  | control (index : Nat)
  /-- Bits in hexadecimal, as they were written. -/
  | bits (literal : String)
  | cell (cell : CellTerm)
  /-- A dictionary from keys to code. -/
  | dict (line : Nat) (entries : List (Int × List Item))

/-- A cell written out. -/
inductive CellTerm
  /-- Raw bits, then cells that become references. -/
  | raw (line : Nat) (blobs : List Blob) (children : List CellTerm)
  /-- Raw bits, then code. -/
  | code (line : Nat) (blobs : List Blob) (items : List Item)

end

end CellCode.Listing
