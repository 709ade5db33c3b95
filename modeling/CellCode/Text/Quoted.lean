import CellCode.Text.Printable

/-!
# Quoted text

How messages show a text that came from outside. Single quotes surround it, unless it holds
a single quote and no double quote. The backslash, the chosen quote and the three common
control characters are escaped by a backslash, other characters that are not printable by
their code point in hexadecimal.
-/

namespace CellCode.Text

-- Powers are those of the standard library, whatever else is in scope.
attribute [local instance (high)] instPowNat

/-- The digit of value `d` in lower-case hexadecimal. -/
def hexDigit (d : Nat) : Char := (Nat.digitChar (d % 16))

/-- The `width` lowest hexadecimal digits of `n`, most significant first. -/
def hexDigits : (width : Nat) → Nat → List Char
  | 0, _ => []
  | width + 1, n => hexDigit (n / 16 ^ width) :: hexDigits width n

/-- The escape of a character by its code point: two, four or eight digits. -/
def escapeCodePoint (c : Char) : List Char :=
  let n := c.toNat
  if n < 0x100 then '\\' :: 'x' :: hexDigits 2 n
  else if n < 0x10000 then '\\' :: 'u' :: hexDigits 4 n
  else '\\' :: 'U' :: hexDigits 8 n

/-- One character inside `quote` marks. -/
def quotedChar (quote c : Char) : List Char :=
  if c == quote || c == '\\' then ['\\', c]
  else if c == '\n' then ['\\', 'n']
  else if c == '\r' then ['\\', 'r']
  else if c == '\t' then ['\\', 't']
  else if isPrintable c then [c]
  else escapeCodePoint c

/-- The quote mark for a text: double only where that saves an escape. -/
def quoteMark (cs : List Char) : Char :=
  if cs.contains '\'' && !cs.contains '"' then '"' else '\''

/-- The text between quote marks, with escapes. -/
def quoted (text : String) : String :=
  let cs := text.toList
  let mark := quoteMark cs
  String.ofList (mark :: cs.flatMap (quotedChar mark) ++ [mark])

end CellCode.Text
