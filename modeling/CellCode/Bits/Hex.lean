import CellCode.Bits.Basic
import CellCode.Cell.Error
import CellCode.Text.Digit

/-!
# Bit strings in hexadecimal

Four bits to a digit, upper case. When the bits do not fill the last digit they are closed
by a completion tag and an underscore says so, hence `"8_"` writes no bits and `"C_"` writes
a single one. Readers also take the forms in which listings write a literal, `x{...}` and
`x...`, with blanks around it.
-/

namespace CellCode.Bits

/-- One hexadecimal digit for each four bits; a rest of fewer than four is left out. -/
def hexDigits : Bits → List Char
  | a :: b :: c :: d :: rest => (Nat.digitChar (toNat [a, b, c, d])).toUpper :: hexDigits rest
  | _ => []

/-- The bits in hexadecimal, with an underscore where the last digit holds a tag. -/
def toHex (bits : Bits) : String :=
  String.ofList
    (if bits.length % 4 = 0 then hexDigits bits else hexDigits (bits.tag 4) ++ ['_'])

/-- The bits that hexadecimal digits write, four each. -/
def ofHexDigits? (digits : List Char) : Option Bits :=
  (digits.mapM fun c => (Text.hexValue? c).map (ofNat 4)).map List.flatten

/-- The text without the marks of a literal: a leading `x`, then braces around the rest. -/
def stripLiteralMarks (cs : List Char) : List Char :=
  let cs := match cs with
    | 'x' :: rest => rest
    | 'X' :: rest => rest
    | _ => cs
  if cs.head? = some '\x7b' ∧ cs.getLast? = some '\x7d'
  then cs.tail.dropLast else cs

/-- Reads hexadecimal bits, written bare or as a literal. -/
def ofHex (text : String) : Except CellError Bits :=
  let cs := stripLiteralMarks (Text.trim text.toList)
  let tagged := cs.getLast? = some '_'
  match ofHexDigits? (if tagged then cs.dropLast else cs) with
  | none => .error (.invalidHex text)
  | some bits =>
    if tagged then
      match bits.untag? with
      | none => .error (.missingTag text)
      | some rest => .ok rest
    else .ok bits

end CellCode.Bits
