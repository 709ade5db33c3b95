import CellCode.Container.Reader
import CellCode.Listing.Printer

/-!
# From cells to listings

Decodes the code of a slice, marks its jump tables and prints it. A jump table that cannot be
resolved ends the whole listing.
-/

namespace CellCode.Listing

/-- Code that cannot be shown as a listing. -/
inductive DisassembleError
  | cell (error : CellError)
  | container (error : ContainerError)
  | decode (error : DecodeError)
  | print (error : PrintError)
  deriving DecidableEq

/-- The wording of an error. -/
def DisassembleError.message : DisassembleError → String
  | cell e => e.message
  | container e => e.message
  | decode e => e.message
  | print e => e.message

/-- The listing of a slice. -/
def disassemble (s : Slice) (collapse : Bool) : Except DisassembleError String :=
  match loadCode s collapse with
  | .error e => .error (.decode e)
  | .ok (store, root) =>
    let (store, _) := store.markJumpTables root
    match (printCode collapse store root "").run ∅ with
    | (.ok text, _) => .ok text
    | (.error e, _) => .error (.print e)

/-- The listing of bits in hexadecimal. -/
def disassembleFragment (hex : String) : Except DisassembleError String :=
  match Bits.ofHex hex >>= fun bits => Cell.make bits [] with
  | .error e => .error (.cell e)
  | .ok cell => disassemble cell.toSlice false

/-- The listing of the code in a container: its first root, or that root's first reference if
    the root is a whole state. -/
def disassembleContainer (bytes : List UInt8) (state collapse : Bool) :
    Except DisassembleError String :=
  match Container.readRoot bytes 0 with
  | .error e => .error (.container e)
  | .ok root =>
    if state then
      match root.reference 0 with
      | .error _ => .error (.container .noCode)
      | .ok code => disassemble code.toSlice collapse
    else disassemble root.toSlice collapse

end CellCode.Listing
