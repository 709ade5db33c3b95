import CellCode.Opcode.Standard

/-!
# Decoding, one code at a time

The instructions of a code stand one after the other in the bits of a slice. When the bits
run out and a single reference is left, the code goes on in that cell. `step` looks at the
front of a slice, and `scan` follows the code to its end. Nested code is not entered: an
operand holds the cell in which its code lies.

Decoding always ends because every step leaves less to be read (`step_instruction_size`,
`step_jump_size`), and the nested code found on the way is smaller than what it was found in
(`scan_bodySize`).
-/

namespace CellCode

-- Sums are those of the standard library, whatever else is in scope.
attribute [local instance (high)] Zero.ofOfNat0

/-- Code that cannot be decoded. -/
inductive DecodeError
  /-- A code that ends with references which no instruction took. -/
  | unconsumed (cell : String) (refs : Int)
  /-- Bits that no opcode starts. -/
  | unknownOpcode (cell : String) (bit : Nat) (hex : String)
  /-- An instruction that ends too early. -/
  | truncated (name cell : String) (error : CellError)
  /-- A bit string constant in which no bit is set. -/
  | missingTag (bit : Nat)
  /-- A window that promises more references than its cell has. -/
  | window (error : CellError)
  deriving DecidableEq

/-- The wording of an error. -/
def DecodeError.message : DecodeError → String
  | unconsumed cell refs => s!"cell #{cell} ends with {refs} unconsumed references"
  | unknownOpcode cell bit hex =>
    s!"unknown opcode at cell #{cell} bit {bit}: x" ++ "\x7b" ++ hex ++ "\x7d"
  | truncated name cell error => s!"truncated {name} at cell #{cell}: " ++ error.message
  | missingTag bit => s!"slice constant lacks a completion tag at bit {bit}"
  | window error => error.message

namespace Decode

open Opcode (Format standard)

/-- What stands at the front of a slice. -/
inductive Step
  /-- Nothing: the code ends. -/
  | finished
  /-- The code goes on in another cell. -/
  | jump (next : Cell)
  /-- An instruction, and the rest of the code. -/
  | instruction (instruction : Instruction Cell) (rest : Slice)
  /-- Nothing that can be decoded; the operands were read before that showed. -/
  | failed (error : DecodeError) (operands : List (Operand Cell))

/-- The error for an instruction of which an operand cannot be read. -/
def operandError (h : Format) (s : Slice) : OperandError → DecodeError
  | .cell e => .truncated h.name s.cell.shortHash e
  | .missingTag bit => .missingTag bit

/-- Looks at the front of a slice. -/
def step (s : Slice) : Step :=
  if s.remainingBits = 0 then
    if s.remainingRefs = 0 then .finished
    else if s.remainingRefs = 1 then
      match s.loadRef with
      | .ok (next, _) => .jump next
      | .error e => .failed (.window e) []
    else .failed (.unconsumed s.cell.shortHash s.remainingRefs) []
  else
    match standard.find? s.data with
    | none => .failed (.unknownOpcode s.cell.shortHash s.bitPos s.hex) []
    | some h =>
      let decoded := h.decode s
      match decoded.outcome with
      | .ok rest => .instruction ⟨h.name, decoded.operands⟩ rest
      | .error e => .failed (operandError h s e) decoded.operands

/-- The size of the code nested in an instruction. -/
def bodySize (i : Instruction Cell) : Nat := Format.bodiesSize i.operands

/-- An instruction leaves less than there was, the code nested in it counted. -/
theorem step_instruction_size {s rest : Slice} {i : Instruction Cell}
    (h : step s = .instruction i rest) : rest.size + bodySize i < s.size := by
  unfold step at h
  split at h
  · split at h
    · cases h
    · split at h
      · split at h <;> cases h
      · cases h
  · split at h
    · cases h
    · rename_i format hf
      dsimp only at h
      split at h
      · rename_i next ho
        cases h
        have hmem := Opcode.Table.mem_of_find? hf
        have hne := Opcode.instructions_opcode_ne_nil format hmem
        have hlen : 0 < format.opcode.length := List.length_pos_iff.mpr hne
        have := Format.decode_size ho
        simp only [bodySize]
        omega
      · cases h

/-- A cell in which the code goes on is smaller than the slice that leads to it. -/
theorem step_jump_size {s : Slice} {next : Cell} (h : step s = .jump next) :
    next.toSlice.size < s.size := by
  unfold step at h
  split at h
  · split at h
    · cases h
    · split at h
      · split at h
        · rename_i next' rest hl
          cases h
          have := Slice.loadRef_eq_ok hl
          have : 0 < rest.size := by simp only [Slice.size]; omega
          simp only [Slice.size_toSlice]
          omega
        · cases h
      · cases h
  · split at h
    · cases h
    · dsimp only at h
      split at h <;> cases h

/-- The instructions of one code, and why it breaks off, if it does; the operands of the
    instruction at which it broke off are kept. -/
structure Scan where
  instructions : List (Instruction Cell)
  failure : Option (DecodeError × List (Operand Cell))

/-- Follows a code to its end. -/
def scan (s : Slice) : Scan :=
  match _h : step s with
  | .finished => ⟨[], none⟩
  | .jump next => scan next.toSlice
  | .instruction i rest =>
    let scanned := scan rest
    { scanned with instructions := i :: scanned.instructions }
  | .failed e operands => ⟨[], some (e, operands)⟩
termination_by s.size
decreasing_by
  · exact step_jump_size _h
  · have := step_instruction_size _h
    omega

/-- The code nested in a code is smaller than the slice that holds it. -/
theorem scan_bodySize (s : Slice) : ((scan s).instructions.map bodySize).sum < s.size := by
  fun_induction scan s with
  | case1 s h => exact s.size_pos
  | case2 s next h ih => exact Nat.lt_trans ih (step_jump_size h)
  | case3 s i rest h scanned ih =>
    have := step_instruction_size h
    simp only [List.map_cons, List.sum_cons]
    simp only [scanned]
    omega
  | case4 s e operands h => exact s.size_pos

end Decode

end CellCode
