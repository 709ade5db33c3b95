import CellCode.Code.Decode
import CellCode.Code.Store
import Std.Data.HashMap

/-!
# Loading code into a store

A loader decodes a code and all code nested in it into a store. A nested code is given its
place when it is met and is decoded later: the codes to be decoded wait on a stack, so the
one met last comes first. When the loader collapses, a cell that was met before stands for
the place it was given then; code that lies inside an instruction always has a place of its
own.

A code that cannot be decoded ends the load. What was decoded until then stays in the store,
and a place once given to a cell stays given, even if its code was not reached.
-/

namespace CellCode

-- Sums are those of the standard library, whatever else is in scope.
attribute [local instance (high)] Zero.ofOfNat0

/-- A store of decoded code, and the places given to cells, by digest. -/
structure Loader where
  collapse : Bool
  store : CodeStore
  placed : Std.HashMap Digest CodeId

namespace Loader

/-- A loader that has loaded nothing. -/
def new (collapse : Bool) : Loader := ⟨collapse, .empty, ∅⟩

/-- A loader at work: the codes that were given a place and wait to be decoded, the one to
    be decoded next in front. -/
structure Work where
  loader : Loader
  pending : List (CodeId × Slice)

namespace Work

/-- Gives a body a new place and lets it wait. -/
def defer (w : Work) (body : Cell) : Work where
  loader := { w.loader with store := w.loader.store.push [] }
  pending := (w.loader.store.size, body.toSlice) :: w.pending

/-- The place of a body: the one its cell was given before, or a new one. -/
def placeBody (w : Work) (body : Cell) (source : Option Cell) : CodeId × Work :=
  if w.loader.collapse ∧ source.isSome then
    match w.loader.placed[body.digest]? with
    | some id => (id, w)
    | none =>
      let id := w.loader.store.size
      let w' := w.defer body
      (id, { w' with loader.placed := w'.loader.placed.insert body.digest id })
  else (w.loader.store.size, w.defer body)

/-- Gives the code of an operand its place. -/
def place (w : Work) : Operand Cell → Operand CodeId × Work
  | .integer v => (.integer v, w)
  | .stack i => (.stack i, w)
  | .control i => (.control i, w)
  | .bits b => (.bits b, w)
  | .cell c => (.cell c, w)
  | .code body source =>
    let placed := w.placeBody body source
    (.code placed.1 source, placed.2)
  | .marker => (.marker, w)

/-- Gives the code of each operand its place. -/
def placeAll (w : Work) : List (Operand Cell) → List (Operand CodeId) × Work
  | [] => ([], w)
  | operand :: operands =>
    let first := w.place operand
    let others := first.2.placeAll operands
    (first.1 :: others.1, others.2)

/-- Gives all code nested in a code its place. -/
def placeCode (w : Work) : List (Instruction Cell) → Code × Work
  | [] => ([], w)
  | i :: is =>
    let first := w.placeAll i.operands
    let others := first.2.placeCode is
    (⟨i.name, first.1⟩ :: others.1, others.2)

/-! ## The work left -/

/-- The size of all that waits to be decoded. -/
def size (w : Work) : Nat := (w.pending.map fun p => p.2.size).sum

theorem size_defer (w : Work) (body : Cell) : (w.defer body).size = body.size + w.size := by
  simp [size, defer]

theorem size_place (w : Work) (operand : Operand Cell) :
    (w.place operand).2.size ≤ operand.bodySize + w.size := by
  cases operand with
  | code body source =>
    have hd := size_defer w body
    simp only [place, placeBody, Operand.bodySize, Operand.body?, Option.map_some,
      Option.getD_some]
    split
    · split
      · simp
      · simp only [size] at *; simp_all
    · simp_all
  | _ => simp [place]

theorem size_placeAll (w : Work) (operands : List (Operand Cell)) :
    (w.placeAll operands).2.size ≤ Opcode.Format.bodiesSize operands + w.size := by
  induction operands generalizing w with
  | nil => simp [placeAll]
  | cons operand operands ih =>
    have h1 := size_place w operand
    have h2 := ih (w.place operand).2
    simp only [placeAll, Opcode.Format.bodiesSize, List.map_cons, List.sum_cons] at *
    omega

theorem size_placeCode (w : Work) (is : List (Instruction Cell)) :
    (w.placeCode is).2.size ≤ (is.map Decode.bodySize).sum + w.size := by
  induction is generalizing w with
  | nil => simp [placeCode]
  | cons i is ih =>
    have h1 := size_placeAll w i.operands
    have h2 := ih (w.placeAll i.operands).2
    simp only [placeCode, Decode.bodySize, List.map_cons, List.sum_cons] at *
    omega

/-- Puts a decoded code into its place. -/
def fill (w : Work) (id : CodeId) (code : Code) : Work :=
  { w with loader.store := w.loader.store.set id code }

/-- Decodes what waits until nothing is left, or until a code cannot be decoded. -/
def run (w : Work) : Loader × Option DecodeError :=
  match _h : w.pending with
  | [] => (w.loader, none)
  | (id, s) :: pending =>
    let scanned := Decode.scan s
    let placed := placeCode { w with pending := pending } scanned.instructions
    match scanned.failure with
    | none => run (placed.2.fill id placed.1)
    | some (e, operands) => ((placed.2.placeAll operands).2.fill id placed.1 |>.loader, some e)
termination_by w.size
decreasing_by
  have h1 := size_placeCode { w with pending := pending } (Decode.scan s).instructions
  have h2 := Decode.scan_bodySize s
  simp only [size, fill, _h, List.map_cons, List.sum_cons] at *
  omega

end Work

/-- Decodes the code of a slice, with all code nested in it. -/
def load (l : Loader) (s : Slice) : Loader × Except DecodeError CodeId :=
  let root := l.store.size
  let (l, failure) := Work.run ⟨{ l with store := l.store.push [] }, [(root, s)]⟩
  match failure with
  | none => (l, .ok root)
  | some e => (l, .error e)

end Loader

/-- Decodes the code of a slice into a store of its own. -/
def loadCode (s : Slice) (collapse : Bool) : Except DecodeError (CodeStore × CodeId) :=
  let (l, result) := (Loader.new collapse).load s
  result.map fun root => (l.store, root)

end CellCode
