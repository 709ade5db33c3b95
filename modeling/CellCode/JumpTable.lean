import CellCode.Code.Loader
import CellCode.Dictionary.Search

/-!
# Jump tables

A jump table is a dictionary whose values are code. To show the code in its place, a jump
table is mapped onto its own cell tree: for each key, `locate` finds the cell and the bit
offset at which the value stands, by looking for a cell that has the value's references and
ends with the value's bits.
-/

namespace CellCode

/-- The way from a cell down to another, by reference indices. -/
abbrev Path := List Nat

/-- A dictionary that cannot be mapped onto its cells. -/
inductive ResolutionError
  /-- The dictionary cannot be listed. -/
  | unlisted (error : CellError)
  /-- No cell ends with the value. -/
  | notFound (value : String)
  /-- Two keys whose values were found in one cell. -/
  | notUnique (first second : Nat) (path : Path)
  deriving DecidableEq

/-- A path as messages write it. -/
def Path.text (path : Path) : String := "[" ++ ", ".intercalate (path.map toString) ++ "]"

/-- The wording of an error. -/
def ResolutionError.message : ResolutionError → String
  | unlisted e => "not found: " ++ e.message
  | notFound value => "not found: value x\x7b" ++ value ++ "\x7d"
  | notUnique first second path =>
    s!"non-unique path: keys {first} and {second} share path " ++ Path.text path

namespace JumpTable

/-! ## Finding a value -/

/-- The offset at which the target's bits end the slice, if the references agree too. -/
def endsWith? (s target : Slice) : Option Nat :=
  let data := s.data
  let wanted := target.data
  if s.sameRefs target && wanted.isSuffixOf data then
    some (s.bitPos + (data.length - wanted.length))
  else none

/-- Looks for the target below the references of a cell that is reached by `path`, each cell
    before what hangs below it. -/
def searchBelow (target : Slice) (path : Path) : Cell → Option (Path × Nat)
  | .data _ => none
  | .link cell ref =>
    match searchBelow target path cell with
    | some found => some found
    | none =>
      let here := path ++ [cell.refCount]
      match endsWith? ref.toSlice target with
      | some offset => some (here, offset)
      | none => searchBelow target here ref

/-- Looks for the target in a slice that is reached by `path`, then below its references. -/
def search (s target : Slice) (path : Path) : Option (Path × Nat) :=
  match endsWith? s target with
  | some offset => some (path, offset)
  | none =>
    s.refs.zipIdx.findSome? fun (ref, i) =>
      match endsWith? ref.toSlice target with
      | some offset => some (path ++ [i], offset)
      | none => searchBelow target (path ++ [i]) ref

/-- The first place, cells before what hangs below them, where the target stands. -/
def locate (s target : Slice) (path : Path) : Except ResolutionError (Path × Nat) :=
  match search s target path with
  | some found => .ok found
  | none => .error (.notFound target.hex)

/-! ## The methods of a table -/

/-- The code of a key: where it starts in its cell, and its instructions. -/
structure Method where
  key : Nat
  offset : Nat
  store : CodeStore
  root : CodeId

/-- A jump table that cannot be resolved. -/
inductive Error
  | resolution (error : ResolutionError)
  | decode (error : DecodeError)
  deriving DecidableEq

/-- The wording of an error. -/
def Error.message : Error → String
  | resolution e => e.message
  | decode e => e.message

/-- The methods found so far, by the path of the cell in which they stand. -/
abbrev Methods := List (Path × Method)

/-- The method of a path. -/
def Methods.get? (methods : Methods) (path : Path) : Option Method := methods.lookup path

/-- Finds one entry's place and decodes its code. -/
def resolve (cell : Cell) (methods : Methods) (entry : Dictionary.Entry) :
    Except Error (Path × Method) :=
  match locate cell.toSlice entry.value [] with
  | .error e => .error (.resolution e)
  | .ok (path, offset) =>
    match methods.get? path with
    | some other => .error (.resolution (.notUnique other.key entry.key path))
    | none =>
      match loadCode entry.value false with
      | .error e => .error (.decode e)
      | .ok (store, root) => .ok (path, ⟨entry.key, offset, store, root⟩)

/-- Adds the methods of some entries; the first that cannot be resolved ends it. -/
def resolveAll (cell : Cell) (methods : Methods) : List Dictionary.Entry → Methods × Option Error
  | [] => (methods, none)
  | entry :: entries =>
    match resolve cell methods entry with
    | .error e => (methods, some e)
    | .ok method => resolveAll cell (methods ++ [method]) entries

/-- Adds the methods of the dictionary in `cell`, with keys of `width` bits, to those found
    before. -/
def mark (cell : Cell) (width : Int) (methods : Methods) : Methods × Option Error :=
  match Dictionary.items (some cell) width with
  | .error e => (methods, some (.resolution (.unlisted e)))
  | .ok entries => resolveAll cell methods entries

end JumpTable

end CellCode
