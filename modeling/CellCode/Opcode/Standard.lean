import CellCode.Opcode.Table

/-!
# The instruction set

The table of all instructions. Several mnemonics have more than one encoding; they are tried
in the order in which they stand here, so the shorter one comes first.
-/

namespace CellCode.Opcode

/-- The bits that hexadecimal digits write. -/
def hexBits (digits : String) : Bits := (Bits.ofHexDigits? digits.toList).getD []

/-- An instruction with an opcode of whole hexadecimal digits. -/
def op (name digits : String) (fields : List Field) : Format := ⟨name, hexBits digits, fields⟩

/-- An instruction whose opcode is the first `width` bits of the hexadecimal digits. -/
def opCut (name digits : String) (width : Nat) (fields : List Field) : Format :=
  ⟨name, (hexBits digits).take width, fields⟩

/-- The instructions that work on the stack. -/
def stackInstructions : List Format := [
  op "NOP" "00" [],
  op "SWAP" "01" [],
  op "XCHG0" "0" [.stack 4],
  op "XCHG" "10" [.stack 4, .stack 4],
  op "DUP" "20" [],
  op "OVER" "21" [],
  op "PUSH" "2" [.stack 4],
  op "DROP" "30" [],
  op "NIP" "31" [],
  op "POP" "3" [.stack 4],
  op "ROT" "58" [],
  op "ROTREV" "59" [],
  op "PUSHNULL" "6D" [],
  op "ISNULL" "6E" []]

/-- The instructions that push constants. -/
def constantInstructions : List Format := [
  op "PUSHINT" "7" [.tiny],
  op "PUSHINT" "80" [.signed 8],
  op "PUSHINT" "81" [.signed 16],
  op "PUSHREF" "88" [.cell],
  op "PUSHREFSLICE" "89" [.cell],
  op "PUSHREFCONT" "8A" [.code],
  op "PUSHSLICE" "8B" [.shortSlice],
  op "PUSHCONT" "9" [.inlineCode],
  opCut "PUSHCONT" "8E" 7 [.longInlineCode]]

/-- The instructions that compute with numbers. -/
def arithmeticInstructions : List Format := [
  op "ADD" "A0" [],
  op "SUB" "A1" [],
  op "SUBR" "A2" [],
  op "NEGATE" "A3" [],
  op "INC" "A4" [],
  op "DEC" "A5" [],
  op "ADDCONST" "A6" [.signed 8],
  op "MULCONST" "A7" [.signed 8],
  op "MUL" "A8" [],
  op "DIV" "A904" [],
  op "MOD" "A908" [],
  op "AND" "B0" [],
  op "OR" "B1" [],
  op "XOR" "B2" [],
  op "NOT" "B3" [],
  op "LESS" "B9" [],
  op "EQUAL" "BA" [],
  op "LEQ" "BB" [],
  op "GREATER" "BC" [],
  op "NEQ" "BD" [],
  op "GEQ" "BE" [],
  op "EQINT" "C0" [.signed 8]]

/-- The instructions that build and read cells. -/
def cellInstructions : List Format := [
  op "NEWC" "C8" [],
  op "ENDC" "C9" [],
  op "STI" "CA" [.unsigned 8 1],
  op "STU" "CB" [.unsigned 8 1],
  op "STREF" "CC" [],
  op "STSLICE" "CE" [],
  op "CTOS" "D0" [],
  op "ENDS" "D1" [],
  op "LDI" "D2" [.unsigned 8 1],
  op "LDU" "D3" [.unsigned 8 1],
  op "LDREF" "D4" []]

/-- The instructions that direct the flow of control. -/
def controlInstructions : List Format := [
  op "EXECUTE" "D8" [],
  op "JMPX" "D9" [],
  op "RET" "DB30" [],
  op "RETALT" "DB31" [],
  op "CALLREF" "DB3C" [.code],
  op "JMPREF" "DB3D" [.code],
  op "IFRET" "DC" [],
  op "IFNOTRET" "DD" [],
  op "IF" "DE" [],
  op "IFNOT" "DF" [],
  op "IFJMP" "E0" [],
  op "IFNOTJMP" "E1" [],
  op "IFELSE" "E2" [],
  op "IFREF" "E300" [.code],
  op "IFNOTREF" "E301" [.code],
  op "IFJMPREF" "E302" [.code],
  op "IFNOTJMPREF" "E303" [.code],
  op "IFREFELSEREF" "E30F" [.code, .code],
  op "REPEAT" "E4" [],
  op "UNTIL" "E6" [],
  op "WHILE" "E8" [],
  op "PUSHCTR" "ED4" [.control 4],
  op "POPCTR" "ED5" [.control 4]]

/-- The instructions that throw exceptions. -/
def exceptionInstructions : List Format := [
  opCut "THROW" "F20" 10 [.unsigned 6 0],
  opCut "THROWIF" "F24" 10 [.unsigned 6 0],
  opCut "THROWIFNOT" "F28" 10 [.unsigned 6 0]]

/-- The instructions that use dictionaries. -/
def dictionaryInstructions : List Format := [
  op "DICTIGETJMP" "F4A0" [],
  op "DICTUGETJMP" "F4A1" [],
  op "DICTIGETEXEC" "F4A2" [],
  op "DICTUGETEXEC" "F4A3" [],
  opCut "DICTPUSHCONST" "F4A4" 14 [.unsigned 10 0, .cell],
  opCut "PFXDICTSWITCH" "F4AC" 14 [.unsigned 10 0, .cell],
  op "DICTIGETJMPZ" "F4BC" [],
  op "DICTUGETJMPZ" "F4BD" [],
  op "DICTIGETEXECZ" "F4BE" [],
  op "DICTUGETEXECZ" "F4BF" []]

/-- The remaining instructions. -/
def otherInstructions : List Format := [
  op "ACCEPT" "F800" [],
  op "SETCP0" "FF00" [],
  op "SETCP" "FF" [.unsigned 8 0]]

/-- All instructions in order. -/
def instructions : List Format :=
  stackInstructions ++ constantInstructions ++ arithmeticInstructions ++ cellInstructions ++
    controlInstructions ++ exceptionInstructions ++ dictionaryInstructions ++ otherInstructions

/-- The table of all instructions. -/
def standard : Table := .ofDistinct instructions

/-- The opcodes of all instructions differ. -/
theorem instructions_opcodes_nodup : (instructions.map (·.opcode)).Nodup := by
  decide +kernel

/-- No opcode is empty. -/
theorem instructions_opcode_ne_nil : ∀ h ∈ instructions, h.opcode ≠ [] := by
  decide +kernel

end CellCode.Opcode
