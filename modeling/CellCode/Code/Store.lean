import CellCode.Opcode.Operand

/-!
# Code stores

A code is a list of instructions. Codes nest, and one code may be nested in several places,
so codes are kept in a store and refer to each other by their places in it.
-/

namespace CellCode

/-- The place of a code in its store. -/
abbrev CodeId := Nat

/-- A list of instructions whose nested codes are places in a store. -/
abbrev Code := List (Instruction CodeId)

/-- The mnemonics of a code in order. -/
def Code.names (code : Code) : List String := code.map (·.name)

/-- The nested codes of a code in order. -/
def Code.bodies (code : Code) : List CodeId := code.flatMap Instruction.bodies

/-- Codes by place. -/
structure CodeStore where
  codes : Array Code

namespace CodeStore

/-- A store without codes. -/
def empty : CodeStore := ⟨#[]⟩

instance : Inhabited CodeStore := ⟨empty⟩

/-- The number of codes. -/
def size (store : CodeStore) : Nat := store.codes.size

/-- The code of a place; there are no instructions where there is no code. -/
def get (store : CodeStore) (id : CodeId) : Code := store.codes.getD id []

/-- Adds a code in a new place. -/
def push (store : CodeStore) (code : Code) : CodeStore := ⟨store.codes.push code⟩

/-- Replaces the code of a place. -/
def set (store : CodeStore) (id : CodeId) (code : Code) : CodeStore :=
  ⟨store.codes.setIfInBounds id code⟩

/-! ## Equality

Two codes are equal when their instructions are, nested codes included. Where a nested code
came from does not matter, and cells are equal when their digests are. -/

/-- Codes equal down to `depth` levels of nesting. -/
def sameDownTo (store : CodeStore) : (depth : Nat) → CodeId → CodeId → Bool
  | 0, a, b => a == b
  | depth + 1, a, b =>
    a == b || (store.get a).isEqv (store.get b) (Instruction.sameBy (store.sameDownTo depth))

/-- Equal codes. Codes nest no deeper than there are places. -/
def same (store : CodeStore) (a b : CodeId) : Bool := store.sameDownTo (store.size + 1) a b

end CodeStore

end CellCode
