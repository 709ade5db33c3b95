import CellCode.Cell.Basic

/-!
# Cell literals

A cell in a listing is written out: its hash as a comment, its bits, and its references as
literals of their own, two more spaces in.
-/

namespace CellCode.Listing

/-- How far each level of a listing is set in. -/
def indentStep : String := "  "

/-- Bits as a listing writes them. -/
def bitsText (bits : Bits) : String := "x\x7b" ++ bits.toHex ++ "\x7d"

/-- A line that holds bits, if there are any. -/
def blobLine (pad : String) (bits : Bits) : String :=
  if bits.isEmpty then "" else pad ++ ".blob " ++ bitsText bits ++ "\n"

/-- The first line of a literal, without what sets it in. -/
def openCell (cell : Cell) : String := ".cell \x7b ;; #" ++ cell.hash ++ "\n"

/-- The lines of a literal between the first and the last, each set in by `pad`. -/
def literalBody (pad : String) : Cell → String
  | .data bits => blobLine pad bits
  | .link cell ref =>
    literalBody pad cell ++ pad ++ openCell ref ++ literalBody (pad ++ indentStep) ref ++
      pad ++ "\x7d\n"

/-- A cell written out, without what sets its first line in and without the last line end. -/
def literal (pad : String) (cell : Cell) : String :=
  openCell cell ++ literalBody (pad ++ indentStep) cell ++ pad ++ "\x7d"

/-- A cell written out in lines of its own. -/
def cellLines (pad : String) (cell : Cell) : String := pad ++ literal pad cell ++ "\n"

end CellCode.Listing
