import CellCode.Cell.Slice

/-!
# Dictionary labels

Each node of a dictionary starts with a label: the key bits that all entries below it share.
With `m` key bits left, a label of `n` bits is written in one of three forms,

* short: a zero, `n` ones and a zero, then the label;
* long: a one and a zero, `n` in as many bits as `m` takes, then the label;
* same: two ones, the bit that the whole label repeats, then `n` as above.

`Label.encode` takes the shortest form, and of equally short ones the first.
-/

namespace CellCode.Label

/-- The number of binary digits of a number; zero has none. -/
def digitCount (n : Nat) : Nat := if n = 0 then 0 else n.log2 + 1

/-- The width of the field that holds a label's length. -/
def lengthWidth (m : Int) : Nat := digitCount m.natAbs

/-- The number in binary, filled up with zeros to `width` bits; longer if it needs more. -/
def atLeast (width n : Nat) : Bits := .ofNat (max width (digitCount n)) n

/-- The field that holds a label's length. -/
def lengthField (m : Int) (n : Nat) : Bits :=
  if lengthWidth m = 0 then [] else atLeast (lengthWidth m) n

/-! ## Reading -/

/-- Reads ones up to a zero, and counts the ones. -/
def loadUnary (s : Slice) : Except CellError (Nat × Slice) := do
  let ones := (s.data.takeWhile id).length
  let (_, s) ← (s.advance ones).loadBit
  return (ones, s)

/-- Refuses a label longer than the key bits left. -/
def checkLength (form : LabelForm) (n : Nat) (m : Int) : Except CellError Unit :=
  if m < n then .error (.labelTooLong form n m) else .ok ()

/-- Reads a label, with `m` key bits left. -/
def load (s : Slice) (m : Int) : Except CellError (Bits × Slice) := do
  let (first, s) ← s.loadBit
  if !first then
    let (n, s) ← loadUnary s
    checkLength .short n m
    s.loadBits n
  else
    let (second, s) ← s.loadBit
    if !second then
      let (n, s) ← s.loadUInt (lengthWidth m)
      checkLength .long n m
      s.loadBits n
    else
      let (bit, s) ← s.loadBit
      let (n, s) ← s.loadUInt (lengthWidth m)
      checkLength .same n m
      return (List.replicate n bit, s)

/-! ## Writing -/

/-- The label in the short form. -/
def short (label : Bits) : Bits :=
  false :: List.replicate label.length true ++ false :: label

/-- The label in the long form. -/
def long (label : Bits) (m : Int) : Bits :=
  true :: false :: lengthField m label.length ++ label

/-- The label in the same form, if it repeats one bit. -/
def same? (label : Bits) (m : Int) : Option Bits :=
  match label with
  | [] => none
  | bit :: rest =>
    if rest.all (· == bit) then some (true :: true :: bit :: lengthField m label.length) else none

/-- The shorter of two bit strings, the first one if they are equally long. -/
def shorter (a b : Bits) : Bits := if b.length < a.length then b else a

/-- The label in its shortest form. -/
def encode (label : Bits) (m : Int) : Bits :=
  let best := shorter (short label) (long label m)
  match same? label m with
  | none => best
  | some same => shorter best same

end CellCode.Label
