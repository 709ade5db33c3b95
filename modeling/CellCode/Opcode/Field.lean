import CellCode.Opcode.Operand

/-!
# Operand fields

A field is one operand's place in an encoded instruction. `Field.decode` reads the operand
from a slice, and `Field.encode` adds it to an encoding: bits, references and debug
positions.
-/

namespace CellCode

-- Powers and sums are those of the standard library, whatever else is in scope.
attribute [local instance (high)] instPowNat Zero.ofOfNat0

/-- How an operand is encoded. -/
inductive Field
  /-- A place on the stack in so many bits. -/
  | stack (width : Nat)
  /-- A control register in so many bits. -/
  | control (width : Nat)
  /-- An unsigned number, stored less `bias`. -/
  | unsigned (width bias : Nat)
  /-- A signed number. -/
  | signed (width : Nat)
  /-- A number from -5 to 10 in four bits. -/
  | tiny
  /-- Code in a reference. -/
  | code
  /-- A cell in a reference. -/
  | cell
  /-- Code in the instruction's bits: a count of bytes in four bits, then the bytes. -/
  | inlineCode
  /-- Code in the instruction: counts of references and bytes in two and seven bits, then the
      bytes, and as many references. -/
  | longInlineCode
  /-- A bit string: a length `x` in four bits, then `8 x + 4` bits, the last ones a
      completion tag. -/
  | shortSlice
  deriving DecidableEq, Repr

/-! ## Decoding -/

/-- An operand that cannot be read. -/
inductive OperandError
  /-- The slice ends too early. -/
  | cell (error : CellError)
  /-- A bit string in which no bit is set; reading stopped at this bit. -/
  | missingTag (bit : Nat)
  deriving DecidableEq

namespace Field

/-- Reads the operand; nested code is the cell that holds it. -/
def read (s : Slice) : Field → Except CellError (Operand Cell × Slice)
  | stack width => do
    let (n, s) ← s.loadUInt width
    return (.stack n, s)
  | control width => do
    let (n, s) ← s.loadUInt width
    return (.control n, s)
  | unsigned width bias => do
    let (n, s) ← s.loadUInt width
    return (.integer (n + bias), s)
  | signed width => do
    let (v, s) ← s.loadInt width
    return (.integer v, s)
  | tiny => do
    let (n, s) ← s.loadUInt 4
    return (.integer (((n + 5) % 16 : Nat) - 5), s)
  | code => do
    let (c, s) ← s.loadRef
    return (.code c (some c), s)
  | cell => do
    let (c, s) ← s.loadRef
    return (.cell c, s)
  | inlineCode => do
    let (length, s) ← s.loadUInt 4
    let (bits, s) ← s.loadBits (8 * length)
    return (.code (.data bits) none, s)
  | longInlineCode => do
    let (refCount, s) ← s.loadUInt 2
    let (length, s) ← s.loadUInt 7
    let (bits, s) ← s.loadBits (8 * length)
    let (refs, s) ← loadRefs refCount s
    return (.code (.mk bits refs) none, s)
  | shortSlice => do
    let (length, s) ← s.loadUInt 4
    let (bits, s) ← s.loadBits (8 * length + 4)
    return (.bits bits, s)
where
  /-- Reads `n` references. -/
  loadRefs : (n : Nat) → Slice → Except CellError (List Cell × Slice)
    | 0, s => .ok ([], s)
    | n + 1, s => do
      let (ref, s) ← s.loadRef
      let (refs, s) ← loadRefs n s
      return (ref :: refs, s)

/-- Takes the completion tag off a bit string; other operands are complete as read. -/
def complete (field : Field) (operand : Operand Cell) (rest : Slice) :
    Except OperandError (Operand Cell × Slice) :=
  match field, operand with
  | shortSlice, .bits bits =>
    match bits.untag? with
    | none => .error (.missingTag rest.bitPos)
    | some bits => .ok (.bits bits, rest)
  | _, _ => .ok (operand, rest)

/-- Reads the operand and what follows it. -/
def decode (field : Field) (s : Slice) : Except OperandError (Operand Cell × Slice) :=
  match field.read s with
  | .error e => .error (.cell e)
  | .ok (operand, rest) => field.complete operand rest

end Field

/-! ## What an operand leaves -/

/-- The size of the code that an operand holds. -/
def Operand.bodySize (operand : Operand Cell) : Nat := (operand.body?.map Cell.size).getD 0

namespace Field

theorem loadRefs_size {n : Nat} {s rest : Slice} {refs : List Cell}
    (h : read.loadRefs n s = .ok (refs, rest)) :
    rest.size + (refs.map Cell.size).sum = s.size := by
  induction n generalizing s refs with
  | zero => cases h; simp
  | succ n ih =>
    obtain ⟨_, hload, h⟩ := (bind_eq_ok _ _ _).mp h
    obtain ⟨_, hloads, h⟩ := (bind_eq_ok _ _ _).mp h
    cases h
    have := Slice.loadRef_eq_ok hload
    have := ih hloads
    simp only [List.map_cons, List.sum_cons]
    omega

/-- Reading an operand takes at least the size of the code it holds. -/
theorem read_size {field : Field} {s rest : Slice} {operand : Operand Cell}
    (h : field.read s = .ok (operand, rest)) : rest.size + operand.bodySize ≤ s.size := by
  -- A body that is made of bits and references is no larger than what was taken for it.
  cases field with
  | stack width | control width | unsigned width bias | tiny =>
    obtain ⟨_, hload, h⟩ := (bind_eq_ok _ _ _).mp h
    cases h
    have := Slice.loadUInt_eq_ok hload
    simp [Operand.bodySize, Operand.body?]; omega
  | signed width =>
    obtain ⟨_, hload, h⟩ := (bind_eq_ok _ _ _).mp h
    cases h
    have := Slice.loadInt_eq_ok hload
    simp [Operand.bodySize, Operand.body?]; omega
  | code | cell =>
    obtain ⟨_, hload, h⟩ := (bind_eq_ok _ _ _).mp h
    cases h
    have := Slice.loadRef_eq_ok hload
    simp [Operand.bodySize, Operand.body?]; omega
  | inlineCode =>
    obtain ⟨_, hlength, h⟩ := (bind_eq_ok _ _ _).mp h
    obtain ⟨_, hbits, h⟩ := (bind_eq_ok _ _ _).mp h
    cases h
    have := Slice.loadUInt_eq_ok hlength
    have := Slice.loadBits_eq_ok hbits
    simp [Operand.bodySize, Operand.body?, Cell.size] at *; omega
  | longInlineCode =>
    obtain ⟨_, hcount, h⟩ := (bind_eq_ok _ _ _).mp h
    obtain ⟨_, hlength, h⟩ := (bind_eq_ok _ _ _).mp h
    obtain ⟨_, hbits, h⟩ := (bind_eq_ok _ _ _).mp h
    obtain ⟨_, hrefs, h⟩ := (bind_eq_ok _ _ _).mp h
    cases h
    have := Slice.loadUInt_eq_ok hcount
    have := Slice.loadUInt_eq_ok hlength
    have := Slice.loadBits_eq_ok hbits
    have := loadRefs_size hrefs
    simp [Operand.bodySize, Operand.body?, Cell.size_mk] at *; omega
  | shortSlice =>
    obtain ⟨_, hlength, h⟩ := (bind_eq_ok _ _ _).mp h
    obtain ⟨_, hbits, h⟩ := (bind_eq_ok _ _ _).mp h
    cases h
    have := Slice.loadUInt_eq_ok hlength
    have := Slice.loadBits_eq_ok hbits
    simp [Operand.bodySize, Operand.body?] at *; omega

/-- Taking a completion tag off changes neither the code held nor what is left. -/
theorem complete_size {field : Field} {s rest : Slice} {operand result : Operand Cell}
    (h : field.complete operand s = .ok (result, rest)) :
    rest = s ∧ result.bodySize = operand.bodySize := by
  unfold complete at h
  split at h
  · split at h
    · cases h
    · cases h; simp [Operand.bodySize, Operand.body?]
  · cases h; exact ⟨rfl, rfl⟩

theorem decode_size {field : Field} {s rest : Slice} {operand : Operand Cell}
    (h : field.decode s = .ok (operand, rest)) : rest.size + operand.bodySize ≤ s.size := by
  unfold decode at h
  split at h
  · cases h
  · rename_i hread
    obtain ⟨rfl, hsize⟩ := complete_size h
    rw [hsize]
    exact read_size hread

end Field

/-! ## Encoding -/

/-- Operands that an instruction cannot hold. -/
inductive EncodeError
  /-- Another number of operands than the instruction takes. -/
  | operandCount (name : String) (expected actual : Nat)
  /-- An operand of another kind than the field's, which is named. -/
  | wrongKind (kind : String)
  /-- A number out of an unsigned field's range. -/
  | unsignedRange (value : Int) (width : Nat)
  /-- A number out of a signed field's range. -/
  | signedRange (value : Int) (width : Nat)
  /-- A number out of the tiny field's range. -/
  | tinyRange (value : Int)
  /-- Code that does not fit the instruction's bits. -/
  | shortCode
  /-- Code that does not fit the instruction. -/
  | longCode
  /-- A bit string too long for a constant. -/
  | sliceTooLong (bits : Nat)
  deriving DecidableEq, Repr

/-- The wording of an error. -/
def EncodeError.message : EncodeError → String
  | operandCount name expected actual => s!"{name} takes {expected} operand(s), got {actual}"
  | wrongKind kind => "expected " ++ kind
  | unsignedRange value width => s!"{value} is out of range for {width} unsigned bits"
  | signedRange value width => s!"{value} is out of range for {width} signed bits"
  | tinyRange value => s!"{value} is out of range -5..10"
  | shortCode => "short inline continuation needs at most 15 whole bytes and no references"
  | longCode => "inline continuation needs whole bytes and at most 3 references"
  | sliceTooLong bits => s!"slice of {bits} bits is too long for an inline constant"

/-- The bits, references and debug positions of an encoded instruction. A reference is the cell of
    what a fragment holds; it is built when the instruction is written to a chain. -/
structure Encoding where
  bits : Bits
  refs : List Cell
  dbg : Debug.Node

namespace Encoding

/-- Adds bits. -/
def addBits (e : Encoding) (bits : Bits) : Encoding := { e with bits := e.bits ++ bits }

/-- Adds a fragment as a reference. -/
def addRef (e : Encoding) (f : Fragment) : Encoding :=
  { e with refs := e.refs ++ [f.builder.cell], dbg := e.dbg.append f.dbg }

/-- Adds the content of a fragment. -/
def addInline (e : Encoding) (f : Fragment) : Encoding where
  bits := e.bits ++ f.builder.bits
  refs := e.refs ++ f.builder.refs
  dbg := e.dbg.inlined e.bits.length f.dbg

end Encoding

namespace Field

/-- An unsigned number in a field of `width` bits. -/
def unsignedBits (value : Int) (width : Nat) : Except EncodeError Bits :=
  if 0 ≤ value ∧ value < 2 ^ width then .ok (.ofNat width value.toNat)
  else .error (.unsignedRange value width)

/-- A signed number in a field of `width` bits. -/
def signedBits (value : Int) (width : Nat) : Except EncodeError Bits :=
  let half : Int := 2 ^ (width - 1)
  if -half ≤ value ∧ value < half then .ok (.ofInt width value)
  else .error (.signedRange value width)

/-- Adds an operand to an encoding. Code and cells are given as fragments. -/
def encode (field : Field) (operand : Operand Fragment) (e : Encoding) :
    Except EncodeError Encoding :=
  match field, operand with
  | stack width, .stack index => return e.addBits (← unsignedBits index width)
  | stack _, _ => throw (.wrongKind "a stack register")
  | control width, .control index => return e.addBits (← unsignedBits index width)
  | control _, _ => throw (.wrongKind "a control register")
  | unsigned width bias, .integer value => return e.addBits (← unsignedBits (value - bias) width)
  | unsigned .., _ => throw (.wrongKind "an integer")
  | signed width, .integer value => return e.addBits (← signedBits value width)
  | signed _, _ => throw (.wrongKind "an integer")
  | tiny, .integer value =>
    if -5 ≤ value ∧ value ≤ 10 then return e.addBits (.ofInt 4 value)
    else throw (.tinyRange value)
  | tiny, _ => throw (.wrongKind "an integer")
  | code, .code fragment _ => return e.addRef fragment
  | code, _ => throw (.wrongKind "a code block")
  | cell, .code fragment _ => return e.addRef fragment
  | cell, _ => throw (.wrongKind "a cell")
  | inlineCode, .code fragment _ =>
    let b := fragment.builder
    if b.refs.isEmpty ∧ b.bits.length % 8 = 0 ∧ b.bits.length ≤ 8 * 15 then
      return (e.addBits (.ofNat 4 (b.bits.length / 8))).addInline fragment
    else throw .shortCode
  | inlineCode, _ => throw (.wrongKind "a code block")
  | longInlineCode, .code fragment _ =>
    let b := fragment.builder
    if b.refs.length ≤ 3 ∧ b.bits.length % 8 = 0 ∧ b.bits.length ≤ 8 * 127 then
      return (e.addBits (.ofNat 2 b.refs.length ++ .ofNat 7 (b.bits.length / 8))).addInline fragment
    else throw .longCode
  | longInlineCode, _ => throw (.wrongKind "a code block")
  | shortSlice, .bits bits =>
    let length := (bits.length + 4) / 8
    if length ≤ 15 then
      let zeros := 8 * length + 4 - bits.length - 1
      return e.addBits (.ofNat 4 length ++ bits ++ true :: List.replicate zeros false)
    else throw (.sliceTooLong bits.length)
  | shortSlice, _ => throw (.wrongKind "a bitstring")

end Field

end CellCode
