import CellCode.Cell.Basic

/-!
# Dumps

A dump shows a cell tree as text: one line for each cell with its bits, the references below
it in order, two more spaces in.
-/

namespace CellCode.Cell

/-- How far each level is set in. -/
def indentStep : String := "  "

/-- The tree below a cell, one line for each cell, every line set in by `pad`. -/
def dump (pad : String) : Cell → String
  | data bits => pad ++ "x\x7b" ++ bits.toHex ++ "\x7d\n"
  | link cell ref => dump pad cell ++ dump (pad ++ indentStep) ref

end CellCode.Cell
