import CellCode.JumpTable
import CellCode.Code.JumpIdiom
import CellCode.Listing.Literal
import Std.Data.HashSet

/-!
# Printing listings

A listing shows a code one instruction to a line, operands behind the mnemonic and nested
code in braces, two more spaces in. Code that came from a cell of its own has the cell's hash
as a comment; when the printer collapses, only the first code of a hash is written out.

The cell of a marked instruction is a jump table and is shown with the code of its methods in
their places. The printer remembers the hashes it has met, also when printing breaks off.
-/

namespace CellCode.Listing

/-- Code that cannot be printed. -/
inductive PrintError
  /-- A jump table that cannot be resolved. -/
  | jumpTable (error : JumpTable.Error)
  /-- A jump table whose instruction has no key width. -/
  | noKeyWidth
  deriving DecidableEq

/-- The wording of an error. -/
def PrintError.message : PrintError → String
  | jumpTable e => e.message
  | noKeyWidth => "jump table without a key width"

/-- The digests of the cells whose code was printed. -/
abbrev Printed := Std.HashSet Digest

/-- Printing: it remembers what was printed and may break off. -/
abbrev Print := ExceptT PrintError (StateM Printed)

/-! ## Operands -/

/-- An operand without an inline form, named by its kind. -/
structure InlineError where
  kind : String

/-- The wording of the error. -/
def InlineError.message (e : InlineError) : String := e.kind ++ " has no inline form"

/-- The text of an operand that is written behind the mnemonic. -/
def inlineText {κ : Type} : Operand κ → Except InlineError String
  | .integer v => .ok (toString v)
  | .stack i => .ok (s!"s{i}")
  | .control i => .ok (s!"c{i}")
  | .bits b => .ok (bitsText b)
  | .cell _ => .error ⟨"CellRef"⟩
  | .code .. => .error ⟨"CodeRef"⟩
  | .marker => .error ⟨"CodeDictMarker"⟩

/-- The operands that are written behind the mnemonic as they are. -/
def inlineTexts (i : Instruction CodeId) : List String :=
  i.operands.filterMap fun operand => (inlineText operand).toOption

/-- The cells among the operands. -/
def operandCells (i : Instruction CodeId) : List Cell :=
  i.operands.filterMap fun
    | .cell c => some c
    | _ => none

/-- The nested codes among the operands, with the cells they came from. -/
def operandBlocks (i : Instruction CodeId) : List (CodeId × Option Cell) :=
  i.operands.filterMap fun
    | .code body source => some (body, source)
    | _ => none

/-- The first number among the operands. -/
def keyWidth? (i : Instruction CodeId) : Option Int :=
  i.operands.findSome? fun
    | .integer v => some v
    | _ => none

/-! ## Code -/

/-- Prints a nested code in braces; `body` prints its instructions. -/
def printBlock (collapse : Bool) (source : Option Cell) (pad : String)
    (body : String → Print String) : Print String := do
  match source with
  | none => return " \x7b\n" ++ (← body (pad ++ indentStep)) ++ pad ++ "\x7d"
  | some cell =>
    let opened := " \x7b ;; #" ++ cell.hash
    if collapse && (← get).contains cell.digest then
      return opened ++ " (collapsed)\n" ++ pad ++ "\x7d"
    else
      modify (·.insert cell.digest)
      return opened ++ "\n" ++ (← body (pad ++ indentStep)) ++ pad ++ "\x7d"

/-- How cells among the operands are printed, given the instruction and what sets it in. -/
abbrev CellPrinter := Instruction CodeId → Cell → String → Print String

/-- Prints one instruction; `nested` prints the codes nested in it. -/
def printInstruction (collapse : Bool) (cellText : CellPrinter)
    (nested : CodeId → String → Print String) (i : Instruction CodeId) (pad : String) :
    Print String := do
  let cells ← (operandCells i).mapM fun c => cellText i c pad
  let operands := inlineTexts i ++ cells
  let head := pad ++ i.name ++ if operands.isEmpty then "" else " " ++ ", ".intercalate operands
  let blocks ← (operandBlocks i).mapM fun (body, source) =>
    printBlock collapse source pad (nested body)
  return head ++ String.join blocks ++ "\n"

/-- Prints the code of a place, nested at most `depth` deep. -/
def printCodeTo (collapse : Bool) (cellText : CellPrinter) (store : CodeStore) :
    (depth : Nat) → CodeId → String → Print String
  | 0, _, _ => return ""
  | depth + 1, id, pad => do
    let lines ← (store.get id).mapM fun i =>
      printInstruction collapse cellText (printCodeTo collapse cellText store depth) i pad
    return String.join lines

/-! ## Jump tables -/

/-- Prints cells as literals. -/
def literalPrinter : CellPrinter := fun _ cell pad => return literal pad cell

/-- Prints code in which no cell is a jump table. -/
def printPlain (collapse : Bool) (store : CodeStore) (id : CodeId) (pad : String) :
    Print String :=
  printCodeTo collapse literalPrinter store (store.size + 1) id pad

/-- Prints the lines of a cell in which a method stands. -/
def printMethod (collapse : Bool) (m : JumpTable.Method) (cell : Cell) (pad : String) :
    Print String := do
  let front :=
    if m.offset = 0 then "" else pad ++ ".blob " ++ bitsText (cell.bits.take m.offset) ++ "\n"
  let code ← printPlain collapse m.store m.root (pad ++ indentStep)
  return front ++ pad ++ s!"\x7b ;; method {m.key}\n" ++ code ++ pad ++ "\x7d\n"

/-- Prints the lines of a cell in which no method stands, the methods below it included. -/
def printNodeBody (collapse : Bool) (methods : JumpTable.Methods) (pad : String) (path : Path) :
    Cell → Print String
  | .data bits => return blobLine pad bits
  | .link cell ref => do
    let front ← printNodeBody collapse methods pad path cell
    let here := path ++ [cell.refCount]
    let inner := pad ++ indentStep
    let body ← match methods.get? here with
      | some m => printMethod collapse m ref inner
      | none => printNodeBody collapse methods inner here ref
    return front ++ pad ++ openCell ref ++ body ++ pad ++ "\x7d\n"

/-- Prints a jump table, without what sets its first line in and without the last line end. -/
def printTable (collapse : Bool) (cell : Cell) (methods : JumpTable.Methods) (pad : String) :
    Print String := do
  let inner := pad ++ indentStep
  let body ← match methods.get? [] with
    | some m => printMethod collapse m cell inner
    | none => printNodeBody collapse methods inner [] cell
  return openCell cell ++ body ++ pad ++ "\x7d"

/-- Prints the cells of marked instructions as jump tables and others as literals. -/
def tablePrinter (collapse : Bool) : CellPrinter := fun i cell pad =>
  if i.isMarked then
    match keyWidth? i with
    | none => throw .noKeyWidth
    | some width =>
      match JumpTable.mark cell width [] with
      | (_, some e) => throw (.jumpTable e)
      | (methods, none) => printTable collapse cell methods pad
  else literalPrinter i cell pad

/-! ## Listings -/

/-- Prints the code of a place. -/
def printCode (collapse : Bool) (store : CodeStore) (id : CodeId) (pad : String) :
    Print String :=
  printCodeTo collapse (tablePrinter collapse) store (store.size + 1) id pad

/-- Prints one instruction of a code in a store. -/
def printOne (collapse : Bool) (store : CodeStore) (i : Instruction CodeId) (pad : String) :
    Print String :=
  printInstruction collapse (tablePrinter collapse) (printCode collapse store) i pad

end CellCode.Listing
