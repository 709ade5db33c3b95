import CellCode.Dictionary.Build
import CellCode.Listing.Parser
import CellCode.Opcode.Standard

/-!
# From listings to cells

A listing is read as a whole first. Then it is assembled from the inside out and from left to
right: operands and nested code before the instruction that has them, and all items of a code
before they are packed into cells. The first error in that order is the error of the listing.

An instruction takes the first encoding of its mnemonic that can hold the operands and that
decoding would not take for another instruction.
-/

namespace CellCode.Listing

/-! ## Errors -/

/-- Why an encoding cannot be taken. -/
inductive Unfit
  /-- It cannot hold the operands. -/
  | encode (error : EncodeError)
  /-- Decoding would take it for another instruction. -/
  | shadowed (other : String)
  deriving DecidableEq

/-- The wording of a reason. -/
def Unfit.message : Unfit → String
  | encode e => e.message
  | shadowed other => "these operands encode as " ++ other

/-- What is wrong on a line. -/
inductive LineError
  /-- A token that cannot stand there. -/
  | unexpected
  /-- A cell written out that cannot be built. -/
  | cell (error : CellError)
  /-- A dictionary whose instruction says nothing about the width of its keys. -/
  | noKeyWidth
  | keyWidthRange (width : Int)
  | emptyDictionary
  | duplicateKey (key : Int)
  | unknownMnemonic (name : String)
  /-- No encoding of the mnemonic can be taken; the reason is that of the last one. -/
  | noEncoding (name : String) (reason : Option Unfit)
  deriving DecidableEq

/-- The wording of an error. -/
def LineError.message : LineError → String
  | unexpected => "syntax error"
  | cell e => e.message
  | noKeyWidth => "dictionary needs a key width operand"
  | keyWidthRange width => s!"key width {width} is out of range"
  | emptyDictionary => "empty dictionary"
  | duplicateKey key => s!"duplicate dictionary key {key}"
  | unknownMnemonic name => "unknown mnemonic " ++ name
  | noEncoding name reason => name ++ ": " ++ (reason.map Unfit.message).getD ""

/-- A listing that cannot be assembled. -/
inductive AssembleError
  /-- Something is wrong on a line. -/
  | onLine (line : Nat) (error : LineError)
  /-- A command does not fit into a cell. -/
  | pack (error : PackError)
  /-- Cells are misused. -/
  | cell (error : CellError)
  /-- The debug information does not fit the cells. -/
  | debug (error : Debug.Error)
  deriving DecidableEq

/-- The wording of an error. -/
def AssembleError.message : AssembleError → String
  | onLine line e => s!"line {line}: " ++ e.message
  | pack e => e.message
  | cell e => e.message
  | debug e => e.message

/-- An error of cells, as an error of the listing. -/
def ofCellResult {α : Type} : Except CellError α → Except AssembleError α
  | .ok a => .ok a
  | .error e => .error (.cell e)

/-- An error of cells on a line. That a reference is too deep comes from writing its depth and has
    no line. -/
def ofCellResultOn {α : Type} (line : Nat) : Except CellError α → Except AssembleError α
  | .ok a => .ok a
  | .error e => .error (if e.kind = .conversion then .cell e else .onLine line (.cell e))

/-- An error of packing, as an error of the listing. -/
def ofPackResult {α : Type} : Except PackError α → Except AssembleError α
  | .ok a => .ok a
  | .error e => .error (.pack e)

/-! ## Packing items -/

/-- An assembled item. -/
inductive Command
  /-- Raw bits. -/
  | blob (bits : Bits) (position : Debug.Position)
  /-- An encoded instruction. -/
  | instruction (encoding : Encoding) (position : Debug.Position)

/-- Writes an assembled item to a chain of cells. -/
def Command.write (chain : Chain) : Command → Except PackError Chain
  | blob bits position => chain.writeBits bits (.ofPosition position)
  | instruction e position =>
    let dbg := (Debug.Node.ofPosition position).inlined 0 e.dbg
    if e.refs.isEmpty then chain.writeBits e.bits dbg
    else chain.writeComposite e.bits (e.refs.map .ofCell) dbg

/-- Packs assembled items into cells. -/
def pack (commands : List Command) : Except AssembleError Fragment := do
  let chain ← ofPackResult (commands.foldlM Command.write Chain.start)
  ofCellResult chain.finalize

/-! ## Instructions -/

/-- An assembled operand. -/
inductive Argument
  | operand (operand : Operand Fragment)
  /-- A dictionary, which needs the other operands to be built. -/
  | dict (line : Nat) (entries : List (Int × Fragment))

/-- The first number among the operands. -/
def firstInteger? (arguments : List Argument) : Option Int :=
  arguments.findSome? fun
    | .operand (.integer v) => some v
    | _ => none

/-- The mapping that a dictionary writes, if its keys differ. -/
def mappingOf (line : Nat) (entries : List (Int × Fragment)) :
    Except AssembleError Dictionary.Mapping :=
  entries.foldlM (fun mapping (key, fragment) => do
    if mapping.any (·.1 == key) then throw (.onLine line (.duplicateKey key))
    return mapping ++ [(key, .cell (← ofCellResult fragment.builder.build))]) []

/-- The fragment of a dictionary. -/
def buildDictionary (line : Nat) (entries : List (Int × Fragment)) (arguments : List Argument) :
    Except AssembleError Fragment := do
  let some width := firstInteger? arguments | throw (.onLine line .noKeyWidth)
  if width < 0 ∨ Cell.maxBits < width then throw (.onLine line (.keyWidthRange width))
  if entries.isEmpty then throw (.onLine line .emptyDictionary)
  let mapping ← mappingOf line entries
  match ← ofCellResultOn line (Dictionary.build mapping width) with
  | none => throw (.onLine line .emptyDictionary)
  | some root => return ⟨.ofCell root, .empty⟩

/-- The operand of an argument, its dictionary built. -/
def Argument.resolve (arguments : List Argument) :
    Argument → Except AssembleError (Operand Fragment)
  | operand o => .ok o
  | dict line entries => do return .code (← buildDictionary line entries arguments) none

/-- Tries one encoding. -/
def tryEncode (h : Opcode.Format) (operands : List (Operand Fragment)) :
    Except Unfit Encoding :=
  match h.encode operands with
  | .error e => .error (.encode e)
  | .ok encoding =>
    match Opcode.standard.shadowing? h encoding.bits with
    | some other => .error (.shadowed other.name)
    | none => .ok encoding

/-- Takes the first encoding that can be taken; `reason` is why the one before could not. -/
def firstEncoding (operands : List (Operand Fragment)) :
    List Opcode.Format → (reason : Option Unfit) → Except (Option Unfit) Encoding
  | [], reason => .error reason
  | h :: formats, _ =>
    match tryEncode h operands with
    | .ok encoding => .ok encoding
    | .error reason => firstEncoding operands formats (some reason)

/-- Encodes an instruction. -/
def encodeInstruction (line : Nat) (name : String) (arguments : List Argument) :
    Except AssembleError Encoding := do
  let operands ← arguments.mapM (Argument.resolve arguments)
  match Opcode.standard.candidates name with
  | [] => throw (.onLine line (.unknownMnemonic name))
  | formats =>
    match firstEncoding operands formats none with
    | .ok encoding => return encoding
    | .error reason => throw (.onLine line (.noEncoding name reason))

/-! ## Cells -/

/-- The fragment of a cell written out: raw bits, then references. -/
def buildRaw (line : Nat) (blobs : List (Bits × Debug.Position)) (children : List Fragment) :
    Except AssembleError Fragment :=
  ofCellResultOn line do
    let f ← blobs.foldlM (fun (f : Fragment) (bits, position) => do
      let dbg := f.dbg.inlined f.builder.bits.length (.ofPosition position)
      return ⟨← f.builder.storeBits bits, dbg⟩) (⟨.empty, .empty⟩ : Fragment)
    children.foldlM (fun (f : Fragment) child =>
      return ⟨← f.builder.storeRef (← child.builder.build), f.dbg.append child.dbg⟩) f

/-! ## The whole listing -/

/-- Assembles raw bits of a file. -/
def assembleBlob (file : String) (b : Blob) : Except AssembleError (Bits × Debug.Position) := do
  return (← ofCellResult (Bits.ofHex b.literal), ⟨file, b.line⟩)

mutual

/-- Assembles an item of a file. -/
def assembleItem (file : String) : Item → Except AssembleError Command
  | .blob b => do
    let (bits, position) ← assembleBlob file b
    return .blob bits position
  | .instruction line name operands blocks => do
    let terms ← assembleTerms file operands
    let codes ← assembleBlocks file blocks
    let arguments := terms ++ codes.map fun code => .operand (.code code none)
    return .instruction (← encodeInstruction line name arguments) ⟨file, line⟩

/-- Assembles items in order. -/
def assembleItems (file : String) : List Item → Except AssembleError (List Command)
  | [] => return []
  | item :: items => do
    let command ← assembleItem file item
    return command :: (← assembleItems file items)

/-- Assembles codes in order, each packed once it is assembled. -/
def assembleBlocks (file : String) : List (List Item) → Except AssembleError (List Fragment)
  | [] => return []
  | items :: blocks => do
    let fragment ← pack (← assembleItems file items)
    return fragment :: (← assembleBlocks file blocks)

/-- Assembles an operand. -/
def assembleTerm (file : String) : Term → Except AssembleError Argument
  | .integer v => return .operand (.integer v)
  | .stack i => return .operand (.stack i)
  | .control i => return .operand (.control i)
  | .bits literal => do return .operand (.bits (← ofCellResult (Bits.ofHex literal)))
  | .cell cell => do return .operand (.code (← assembleCell file cell) none)
  | .dict line entries => do return .dict line (← assembleEntries file entries)

/-- Assembles operands in order. -/
def assembleTerms (file : String) : List Term → Except AssembleError (List Argument)
  | [] => return []
  | term :: terms => do
    let argument ← assembleTerm file term
    return argument :: (← assembleTerms file terms)

/-- Assembles a cell written out. -/
def assembleCell (file : String) : CellTerm → Except AssembleError Fragment
  | .raw line blobs children => do
    let blobs ← blobs.mapM (assembleBlob file)
    buildRaw line blobs (← assembleCells file children)
  | .code _ blobs items => do
    let blobs ← blobs.mapM (assembleBlob file)
    let commands ← assembleItems file items
    pack (blobs.map (fun (bits, position) => .blob bits position) ++ commands)

/-- Assembles cells in order. -/
def assembleCells (file : String) : List CellTerm → Except AssembleError (List Fragment)
  | [] => return []
  | cell :: cells => do
    let fragment ← assembleCell file cell
    return fragment :: (← assembleCells file cells)

/-- Assembles an entry of a dictionary. -/
def assembleEntry (file : String) : Int × List Item → Except AssembleError (Int × Fragment)
  | (key, items) => do return (key, ← pack (← assembleItems file items))

/-- Assembles the entries of a dictionary in order. -/
def assembleEntries (file : String) :
    List (Int × List Item) → Except AssembleError (List (Int × Fragment))
  | [] => return []
  | entry :: entries => do
    let first ← assembleEntry file entry
    return first :: (← assembleEntries file entries)

end

/-- Assembles a listing into a fragment. -/
def assembleFragment (source file : String) : Except AssembleError Fragment :=
  match parse (lex source) with
  | .error line => .error (.onLine line .unexpected)
  | .ok items => assembleItems file items >>= pack

/-- Assembles a listing into a cell and its debug map. -/
def assemble (source file : String) : Except AssembleError (Cell × Debug.Map) := do
  match (← assembleFragment source file).build with
  | .error (.cell e) => throw (.cell e)
  | .error (.debug e) => throw (.debug e)
  | .ok result => return result

end CellCode.Listing
