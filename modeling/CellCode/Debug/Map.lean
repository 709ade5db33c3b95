import CellCode.Cell.Basic
import CellCode.Debug.Node
import CellCode.Json.Parser
import Std.Data.TreeMap

/-!
# Debug maps

A debug map tells for a cell, named by its hash, and a bit offset in it which line of source
the bits came from. `Map.ofCell` flattens a debug tree, and `Map.toJson` and `Map.ofJson`
keep a map as text: an object with a member for each hash, which holds an object from offset
to position.
-/

namespace CellCode.Debug

/-- The starts known in one cell, by offset. -/
abbrev Offsets := Std.TreeMap Int Position

/-- The starts known in each cell, by hash. -/
structure Map where
  cells : Std.TreeMap String Offsets

namespace Map

/-- A map that knows nothing. -/
def empty : Map := ⟨∅⟩

instance : Inhabited Map := ⟨empty⟩

/-- Adds starts of one cell; a later start at an offset replaces an earlier one. -/
def add (m : Map) (hash : String) (offsets : List (Int × Position)) : Map :=
  ⟨m.cells.insert hash (offsets.foldl (fun t (o, p) => t.insert o p) (m.cells.getD hash ∅))⟩

/-! ## From a debug tree -/

mutual

/-- Adds a cell's starts, then those below it, the last reference first. -/
def addNode (m : Map) (cell : Cell) : Node → Except Error Map
  | .mk offsets children => do
    if children.length > cell.refCount then
      throw (.tooManyChildren children.length cell.shortHash cell.refCount)
    let m := if offsets.isEmpty then m else m.add cell.hash offsets
    addChildren m cell.refs children

/-- Adds the starts below references, the last one first. -/
def addChildren (m : Map) (refs : List Cell) : List Node → Except Error Map
  | [] => return m
  | child :: children =>
    match refs with
    | [] => return m
    | ref :: refs => do
      let m ← addChildren m refs children
      addNode m ref child

end

/-- The map of a cell tree and its debug tree. -/
def ofCell (cell : Cell) (node : Node) : Except Error Map := addNode empty cell node

/-! ## Asking -/

/-- The number of cells in which something is known to start. -/
def size (m : Map) : Nat := m.cells.size

/-- The hashes of those cells, in order. -/
def hashes (m : Map) : List String := m.cells.keys

/-- The starts known in a cell, in order of their offsets. -/
def offsets (m : Map) (hash : String) : List (Int × Position) := (m.cells.getD hash ∅).toList

/-- The position of what starts exactly at an offset. -/
def get? (m : Map) (hash : String) (offset : Int) : Option Position :=
  m.cells[hash]? >>= fun t => t[offset]?

/-- The position of the last start at or before an offset. -/
def lookup? (m : Map) (hash : String) (offset : Int) : Option Position :=
  ((m.offsets hash).filter fun (o, _) => o ≤ offset).getLast?.map (·.2)

/-! ## As text -/

/-- The JSON text of a map. -/
def toJson (m : Map) : String :=
  let entry (t : Offsets) : Json :=
    .object (t.toList.map fun (o, p) => (toString o, .string p.text))
  (Json.object (m.cells.toList.map fun (hash, t) => (hash, entry t))).render

/-- The start that a member of an inner object stands for. -/
def startOfMember : String × Json → Except Error (Int × Position)
  | (name, value) => do
    let some offset := Text.decimalInt? name | throw (.invalidNumber name)
    let .string text := value | throw .wrongShape
    return (offset, ← Position.parse text)

/-- Adds what a member of the outer object says. -/
def addMember (m : Map) : String × Json → Except Error Map
  | (hash, .object members) => do return m.add hash (← members.mapM startOfMember)
  | _ => throw .wrongShape

/-- Reads a map from its JSON text. -/
def ofJson (text : String) : Except Error Map :=
  match Json.parse? text with
  | none => .error .notJson
  | some (.object members) => members.foldlM addMember empty
  | some _ => .error .wrongShape

end Map

end CellCode.Debug
