import CellCode.Cell.Builder
import CellCode.Debug.Map

/-!
# Packing commands into cells

Commands are written one after the other into a chain of units, each of which becomes a
cell. A command goes into the last unit if it fits there and opens a new one otherwise; a
command with references leaves one reference of its unit free for the link to the next.
`Chain.finalize` then folds the chain from its end: the cell of the unit behind is built, and a
unit takes over what it holds when there is room, and links to it as its last reference when
there is not.

Debug trees move along: what is taken over is shifted to where it now starts, and what is
linked becomes a child.
-/

namespace CellCode

/-- A builder together with the debug tree of what it holds. -/
structure Fragment where
  builder : Builder
  dbg : Debug.Node

namespace Fragment

/-- Why a fragment has no cell with a debug map. -/
inductive BuildError
  /-- The cell cannot be built. -/
  | cell (error : CellError)
  /-- The debug tree does not fit the cell. -/
  | debug (error : Debug.Error)
  deriving DecidableEq

/-- The cell of a fragment and the debug map of the tree below it. -/
def build (f : Fragment) : Except BuildError (Cell × Debug.Map) := do
  let cell ← f.builder.build.mapError .cell
  return (cell, ← (Debug.Map.ofCell cell f.dbg).mapError .debug)

end Fragment

/-- A command that cannot be written. -/
inductive PackError
  /-- The bits do not fit even into an empty cell. -/
  | bits (bits : Int)
  /-- The bits and references do not fit even into an empty cell. -/
  | payload (bits : Int) (refs : Nat)
  /-- The debug node has not one child for each reference. -/
  | debugShape (refs children : Nat)
  /-- The command itself is misused. -/
  | cell (error : CellError)
  deriving DecidableEq

/-- The wording of an error. -/
def PackError.message : PackError → String
  | bits n => s!"payload does not fit in a cell: {n} bits"
  | payload n refs => s!"payload does not fit in a cell: {n} bits, {refs} references"
  | debugShape refs children => s!"{refs} references but {children} debug children"
  | cell e => e.message

/-- Units under construction: the last one, and those before it, nearest first. -/
structure Chain where
  earlier : List Fragment
  last : Fragment

namespace Chain

/-- A chain of one empty unit. -/
def start : Chain := ⟨[], ⟨.empty, .empty⟩⟩

instance : Inhabited Chain := ⟨start⟩

/-- The units from the first to the last. -/
def units (c : Chain) : List Fragment := c.earlier.reverse ++ [c.last]

/-- Seals the last unit and goes on with another. -/
def push (c : Chain) (unit : Fragment) : Chain := ⟨c.last :: c.earlier, unit⟩

/-! ## Commands -/

/-- Writes a command without references. -/
def writeBits (c : Chain) (bits : Bits) (dbg : Debug.Node) : Except PackError Chain :=
  let last := c.last
  match last.builder.storeBits bits with
  | .ok builder => .ok { c with last := ⟨builder, last.dbg.inlined last.builder.bits.length dbg⟩ }
  | .error _ =>
    match Builder.empty.storeBits bits with
    | .ok builder => .ok (c.push ⟨builder, dbg⟩)
    | .error _ => .error (.bits bits.length)

/-- The builder with bits and references added, if it keeps a reference free. -/
def storeKeepingLink? (b : Builder) (bits : Bits) (refs : List Cell) : Option Builder :=
  if b.spareRefs ≤ refs.length then none
  else
    match refs.foldlM Builder.storeRef =<< b.storeBits bits with
    | .ok b => some b
    | .error _ => none

/-- Writes a command with references that have been built. -/
def writeBuilt (c : Chain) (bits : Bits) (refs : List Cell) (dbg : Debug.Node) :
    Except PackError Chain :=
  let last := c.last
  match storeKeepingLink? last.builder bits refs with
  | some builder => .ok { c with last := ⟨builder, last.dbg.inlined last.builder.bits.length dbg⟩ }
  | none =>
    match storeKeepingLink? .empty bits refs with
    | some builder => .ok (c.push ⟨builder, dbg⟩)
    | none => .error (.payload bits.length refs.length)

/-- Writes a command with references, whose debug node has a child for each. The references are
    built first. -/
def writeComposite (c : Chain) (bits : Bits) (refs : List Builder) (dbg : Debug.Node) :
    Except PackError Chain :=
  if refs.length ≠ dbg.children.length then
    .error (.debugShape refs.length dbg.children.length)
  else
    match refs.mapM Builder.build with
    | .error e => .error (.cell e)
    | .ok cells => c.writeBuilt bits cells dbg

/-! ## Commands given as bytes -/

/-- Writes the first `count` bits of a byte string as a command. -/
def writeRaw (c : Chain) (bytes : List UInt8) (count : Int) (dbg : Debug.Node) :
    Except PackError Chain :=
  match Builder.bitsOfBytes bytes count with
  | .error e => .error (.cell e)
  | .ok bits => c.writeBits bits dbg

/-- Writes the first `count` bits of a byte string and references as a command. With too many
    references for any unit, the bits are not looked at. -/
def writeRawComposite (c : Chain) (bytes : List UInt8) (refs : List Builder) (dbg : Debug.Node)
    (count : Int) : Except PackError Chain :=
  match Builder.bitsOfBytes bytes count with
  | .ok bits => c.writeComposite bits refs dbg
  | .error e =>
    if refs.length ≠ dbg.children.length then
      .error (.debugShape refs.length dbg.children.length)
    else
      match refs.mapM Builder.build with
      | .error tooDeep => .error (.cell tooDeep)
      | .ok _ =>
        if Cell.maxRefs ≤ refs.length then .error (.payload count refs.length) else .error (.cell e)

/-! ## Folding -/

/-- Joins a unit with the finished one behind it, whose cell is built: takes it over, or links to
    it. -/
def join (unit next : Fragment) : Except CellError Fragment := do
  let cell ← next.builder.build
  match unit.builder.storeSlice cell.toSlice with
  | .ok builder => return ⟨builder, unit.dbg.inlined unit.builder.bits.length next.dbg⟩
  | .error _ => return ⟨← unit.builder.storeRef cell, unit.dbg.append next.dbg⟩

/-- The root of the chain, folded from its end. -/
def finalize (c : Chain) : Except CellError Fragment :=
  c.earlier.foldlM (fun next unit => join unit next) c.last

end Chain

end CellCode
