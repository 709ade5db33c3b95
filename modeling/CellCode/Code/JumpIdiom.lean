import CellCode.Code.Store

/-!
# Finding jump tables

A constant dictionary that the next instruction jumps through is a jump table: its values are
code. `CodeStore.markJumpTables` marks the instructions that push such dictionaries, in a code
and all code nested in it. It visits each code once, however many places it is nested in.
-/

namespace CellCode

/-- The instructions that push a constant dictionary. -/
def dictionaryConstants : List String := ["DICTPUSHCONST", "PFXDICTSWITCH"]

/-- The instructions that jump to a dictionary's value. -/
def dictionaryJumps : List String := ["DICTUGETJMP", "DICTUGETJMPZ"]

namespace Code

/-- Whether the first instruction pushes a jump table for the second and is not marked yet. -/
def needsMark (first second : Instruction CodeId) : Bool :=
  dictionaryConstants.contains first.name && dictionaryJumps.contains second.name &&
    !first.isMarked

/-- The code with its jump tables marked, and how many of them were not marked before. -/
def markJumpTables : Code → Code × Nat
  | first :: second :: rest =>
    let (others, count) := markJumpTables (second :: rest)
    if needsMark first second then (first.mark :: others, count + 1) else (first :: others, count)
  | code => (code, 0)

end Code

namespace CodeStore

/-- The places reached from those that wait, in the order in which they are visited. The place
    that waits in front is visited next, if it is among those not visited yet, and the codes
    nested in it then wait in front, the last one first. -/
def visits (store : CodeStore) (unvisited waiting : List CodeId) : List CodeId :=
  match waiting with
  | [] => []
  | id :: waiting =>
    if id ∈ unvisited then
      id :: store.visits (unvisited.erase id) ((store.get id).bodies.reverse ++ waiting)
    else store.visits unvisited waiting
termination_by (unvisited.length, waiting.length)
decreasing_by
  · have hpos := List.length_pos_of_mem ‹id ∈ unvisited›
    have := List.length_erase_of_mem ‹id ∈ unvisited›
    exact Prod.Lex.left _ _ (by omega)
  · exact Prod.Lex.right _ (by simp)

/-- Every place reached from a code, the code itself first. -/
def reachable (store : CodeStore) (root : CodeId) : List CodeId :=
  store.visits (List.range store.size) [root]

/-- Marks the jump tables in a code and all code nested in it, and counts the new marks. -/
def markJumpTables (store : CodeStore) (root : CodeId) : CodeStore × Nat :=
  (store.reachable root).foldl (fun (store, count) id =>
    let (code, marks) := (store.get id).markJumpTables
    (store.set id code, count + marks)) (store, 0)

end CodeStore

end CellCode
