import CellCode.Text.Digit
import CellCode.Text.Quoted

/-!
# Source positions and debug trees

A debug tree follows the shape of a cell tree. Each node says at which bit offsets of its
cell something starts that came from a known line of source, and its children belong to the
cell's references in order.
-/

namespace CellCode.Debug

/-- What can go wrong with debug information. -/
inductive Error
  /-- A text that is no source position. -/
  | malformedPosition (text : String)
  /-- A text that should be a whole number and is none. -/
  | invalidNumber (text : String)
  /-- A node with more children than its cell has references. -/
  | tooManyChildren (children : Nat) (cell : String) (refs : Nat)
  /-- A text that is not JSON. -/
  | notJson
  /-- JSON of another shape than a debug map. -/
  | wrongShape
  deriving DecidableEq, Repr

/-- The most characters that are shown of a text that is no number. -/
def shownLength : Nat := 200

/-- The wording of an error. -/
def Error.message : Error → String
  | malformedPosition text => "malformed debug position: " ++ Text.quoted text
  | invalidNumber text =>
    "invalid literal for int() with base 10: " ++
      String.ofList ((Text.quoted text).toList.take shownLength)
  | tooManyChildren children cell refs =>
    s!"debug tree has {children} children but cell #{cell} has {refs} references"
  | notJson => "not a JSON text"
  | wrongShape => "not a debug map"

/-! ## Positions -/

/-- A line of a source file. -/
structure Position where
  file : String
  line : Int
  deriving DecidableEq, Repr

namespace Position

/-- The position as text: file, colon, line. -/
def text (p : Position) : String := p.file ++ ":" ++ toString p.line

/-- What stands before the last colon, and what stands after it. -/
def splitAtLastColon (cs : List Char) : Option (List Char × List Char) :=
  match cs.reverse.dropWhile (· != ':') with
  | [] => none
  | _ :: before => some (before.reverse, (cs.reverse.takeWhile (· != ':')).reverse)

/-- Reads a position: the last colon divides a file name that is not empty from a line of
    digits. Digits without a place value pass the test for digits and fail as a number. -/
def parse (text : String) : Except Error Position :=
  match splitAtLastColon text.toList with
  | none => .error (.malformedPosition text)
  | some (file, line) =>
    if file.isEmpty || line.isEmpty || !line.all Text.isDigitLike then
      .error (.malformedPosition text)
    else
      match Text.decimalNat? line with
      | none => .error (.invalidNumber (String.ofList line))
      | some n => .ok ⟨String.ofList file, n⟩

end Position

/-! ## Nodes -/

/-- The starts in one cell, and the nodes of the cell's references. -/
inductive Node
  | mk (offsets : List (Int × Position)) (children : List Node)

namespace Node

/-- The node of a cell in which nothing is known to start. -/
def empty : Node := mk [] []

instance : Inhabited Node := ⟨empty⟩

/-- Where something starts, in the order in which it was recorded. -/
def offsets : Node → List (Int × Position)
  | mk offsets _ => offsets

/-- The nodes of the references. -/
def children : Node → List Node
  | mk _ children => children

/-- The node of a command that starts at the first bit. -/
def ofPosition (p : Position) : Node := mk [(0, p)] []

/-- Takes over another node whose cell's content was added from bit `offset` on. -/
def inlined (n : Node) (offset : Int) (other : Node) : Node :=
  mk (n.offsets ++ other.offsets.map fun (o, p) => (o + offset, p)) (n.children ++ other.children)

/-- Takes another node as the child for one more reference. -/
def append (n other : Node) : Node := mk n.offsets (n.children ++ [other])

end Node

end CellCode.Debug
