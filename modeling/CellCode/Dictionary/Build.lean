import CellCode.Cell.Builder
import CellCode.Dictionary.Label

/-!
# Building dictionaries

Entries are sorted by key and split recursively: a node's label is what all its keys share,
and the next bit decides between references 0 and 1. A single entry becomes a leaf that holds
the rest of its key as label and then its value.
-/

namespace CellCode.Dictionary

-- Powers are those of the standard library, whatever else is in scope.
attribute [local instance (high)] instPowNat

/-- A value to be stored: bits, the content of a cell, or what remains of a slice. -/
inductive Value
  | bits (bits : Bits)
  | cell (cell : Cell)
  | slice (slice : Slice)

/-- The slice to be stored for a value. -/
def Value.toSlice : Value → Except CellError Slice
  | bits b => do return (← Cell.make b []).toSlice
  | cell c => .ok c.toSlice
  | slice s => .ok s

/-- Keys with their values, in the order in which the keys came. -/
abbrev Mapping := List (Int × Value)

/-- Adds a value; a key that is there already keeps its place and takes the new value. -/
def Mapping.insert (m : Mapping) (key : Int) (value : Value) : Mapping :=
  if m.any (·.1 == key) then m.map fun entry => if entry.1 == key then (key, value) else entry
  else m ++ [(key, value)]

/-- The longest bit string that starts both. -/
def commonStart : Bits → Bits → Bits
  | a :: as, b :: bs => if a = b then a :: commonStart as bs else []
  | _, _ => []

/-- The longest bit string that starts all keys. -/
def sharedLabel : List (Bits × Slice) → Bits
  | [] => []
  | (key, _) :: others => others.foldl (fun label entry => commonStart label entry.1) key

/-- The entries whose key goes on with `bit` behind the first `n` bits, cut after it. -/
def branch (entries : List (Bits × Slice)) (n : Nat) (bit : Bool) : List (Bits × Slice) :=
  (entries.filter fun entry => entry.1[n]? == some bit).map fun (key, value) =>
    (key.drop (n + 1), value)

/-- The node for sorted entries whose keys have `m` bits left. -/
def node (m : Nat) (entries : List (Bits × Slice)) : Except CellError Cell := do
  let label := sharedLabel entries
  let b ← Builder.empty.storeBits (Label.encode label m)
  match m, entries with
  | _, [] => b.build
  | _, [(_, value)] => (← b.storeSlice value).build
  | 0, (_, value) :: _ => (← b.storeSlice value).build
  | m + 1, _ =>
    let zeros ← node (m - label.length) (branch entries label.length false)
    let ones ← node (m - label.length) (branch entries label.length true)
    let b ← b.storeRef zeros
    (← b.storeRef ones).build
termination_by m

/-- The key bits and the slice of an entry, if the key fits the width. -/
def keyed (width : Int) (entry : Int × Value) : Except CellError (Int × Bits × Slice) := do
  let (key, value) := entry
  if key < 0 then throw (.keyRange key width)
  if width < 0 then throw .negativeWidth
  if 2 ^ width.toNat ≤ key then throw (.keyRange key width)
  return (key, .ofNat width.toNat key.toNat, ← value.toSlice)

/-- The dictionary that holds a mapping; there is none without entries. -/
def build (mapping : Mapping) (width : Int) : Except CellError (Option Cell) := do
  if mapping.isEmpty then return none
  let entries ← mapping.mapM (keyed width)
  let sorted := entries.mergeSort fun a b => a.1 ≤ b.1
  return some (← node width.toNat (sorted.map (·.2)))

end CellCode.Dictionary
