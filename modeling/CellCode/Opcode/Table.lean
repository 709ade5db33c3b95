import CellCode.Opcode.Field

/-!
# Opcode tables

A format is a mnemonic with its opcode bits and operand fields. A table finds the format
for a bit string by the longest opcode that starts it. `Table.shadowing` tells which longer
opcode an encoded instruction would be taken for instead, because its operand bits happen to
continue the opcode to that one.
-/

namespace CellCode.Opcode

-- Sums are those of the standard library, whatever else is in scope.
attribute [local instance (high)] Zero.ofOfNat0

/-- A mnemonic with its opcode and operand fields. -/
structure Format where
  name : String
  opcode : Bits
  fields : List Field
  deriving DecidableEq, Repr

/-- A table that cannot be set up. -/
inductive TableError
  /-- Two formats with one opcode. -/
  | reused (name other : String)
  /-- An opcode with a character that is no hexadecimal digit. -/
  | invalidDigit (digit : Char)
  deriving DecidableEq, Repr

/-- The wording of an error. -/
def TableError.message : TableError → String
  | reused name other => s!"{name} reuses the opcode of {other}"
  | invalidDigit digit =>
    "invalid literal for int() with base 16: " ++ Text.quoted (String.singleton digit)

namespace Format

/-- The bits of an opcode, cut to `cut` bits; a negative `cut` leaves out so many at the end. -/
def cutBits (bits : Bits) : Option Int → Bits
  | none => bits
  | some cut => if 0 ≤ cut then bits.take cut.toNat else bits.take (bits.length - cut.natAbs)

/-- A format whose opcode is given in hexadecimal. -/
def ofHex (name opcode : String) (fields : List Field) (cut : Option Int) :
    Except TableError Format :=
  match opcode.toList.find? fun c => (Text.hexValue? c).isNone with
  | some digit => .error (.invalidDigit digit)
  | none =>
    .ok ⟨name, cutBits ((Bits.ofHexDigits? opcode.toList).getD []) cut, fields⟩

/-- Encodes operands. -/
def encode (h : Format) (operands : List (Operand Fragment)) : Except EncodeError Encoding :=
  if operands.length ≠ h.fields.length then
    .error (.operandCount h.name h.fields.length operands.length)
  else
    (h.fields.zip operands).foldlM (fun e (field, operand) => field.encode operand e)
      ⟨h.opcode, [], .empty⟩

/-- The operands read so far, and either the slice behind them or why there are no more. -/
structure Decoded where
  operands : List (Operand Cell)
  outcome : Except OperandError Slice

/-- Reads one operand after the other. -/
def decodeFields : List Field → Slice → Decoded
  | [], s => ⟨[], .ok s⟩
  | field :: fields, s =>
    match field.decode s with
    | .error e => ⟨[], .error e⟩
    | .ok (operand, rest) =>
      let decoded := decodeFields fields rest
      { decoded with operands := operand :: decoded.operands }

/-- Reads the operands of an instruction whose opcode starts the slice. -/
def decode (h : Format) (s : Slice) : Decoded :=
  match s.skipBits h.opcode.length with
  | .error e => ⟨[], .error (.cell e)⟩
  | .ok rest => decodeFields h.fields rest

/-- The size of the code that operands hold. -/
def bodiesSize (operands : List (Operand Cell)) : Nat := (operands.map Operand.bodySize).sum

theorem decodeFields_size {fields : List Field} {s rest : Slice}
    (h : (decodeFields fields s).outcome = .ok rest) :
    rest.size + bodiesSize (decodeFields fields s).operands ≤ s.size := by
  induction fields generalizing s with
  | nil => cases h; simp [decodeFields, bodiesSize]
  | cons field fields ih =>
    unfold decodeFields at h ⊢
    split at h
    · cases h
    · rename_i operand next hd
      have h1 := Field.decode_size hd
      have h2 := ih h
      simp only [bodiesSize, List.map_cons, List.sum_cons] at h2 ⊢
      omega

/-- A decoded instruction takes its opcode and at least the size of the code it holds. -/
theorem decode_size {h : Format} {s rest : Slice} (hd : (h.decode s).outcome = .ok rest) :
    rest.size + bodiesSize (h.decode s).operands + h.opcode.length ≤ s.size := by
  unfold decode at hd ⊢
  split at hd
  · cases hd
  · rename_i next hs
    have h1 := Slice.skipBits_eq_ok hs
    have h2 := decodeFields_size hd
    omega

end Format

/-- Formats in the order in which they were given, and grouped by opcode length, the longest
    opcodes first. -/
structure Table where
  formats : List Format
  groups : List (Nat × List Format)

namespace Table

/-- The lengths of the opcodes, longest first, each once. -/
def lengths (formats : List Format) : List Nat :=
  ((formats.map (·.opcode.length)).mergeSort fun a b => b ≤ a).eraseDups

/-- The table of formats whose opcodes are known to differ. -/
def ofDistinct (formats : List Format) : Table where
  formats := formats
  groups := (lengths formats).map fun n => (n, formats.filter (·.opcode.length == n))

/-- Refuses a format whose opcode an earlier one has. -/
def checkDistinct (before : List Format) (h : Format) : Except TableError (List Format) :=
  match before.find? (·.opcode == h.opcode) with
  | some other => .error (.reused h.name other.name)
  | none => .ok (before ++ [h])

/-- The table of some formats, if their opcodes differ. -/
def ofFormats (formats : List Format) : Except TableError Table := do
  return ofDistinct (← formats.foldlM checkDistinct [])

/-- The number of formats. -/
def size (t : Table) : Nat := t.formats.length

/-- The format with the longest opcode among those longer than `least` that start the bits. -/
def findLonger? (t : Table) (bits : Bits) (least : Int) : Option Format :=
  t.groups.findSome? fun (n, formats) =>
    if least < n ∧ n ≤ bits.length then
      let front := bits.take n
      formats.find? (·.opcode == front)
    else none

/-- The format with the longest opcode that starts the bits. -/
def find? (t : Table) (bits : Bits) : Option Format := t.findLonger? bits (-1)

/-- The format that decoding would take for these bits instead of `h`. -/
def shadowing? (t : Table) (h : Format) (bits : Bits) : Option Format :=
  t.findLonger? bits h.opcode.length

/-- What a table finds is one of its formats. -/
theorem mem_of_find? {formats : List Format} {bits : Bits} {h : Format}
    (hf : (ofDistinct formats).find? bits = some h) : h ∈ formats := by
  unfold find? findLonger? at hf
  obtain ⟨⟨n, group⟩, hg, hf⟩ := List.exists_of_findSome?_eq_some hf
  simp only [ofDistinct, List.mem_map] at hg
  obtain ⟨m, _, hm⟩ := hg
  cases hm
  dsimp only at hf
  split at hf
  · exact (List.mem_filter.mp (List.mem_of_find?_eq_some hf)).1
  · cases hf

/-- The formats of a mnemonic in order. -/
def candidates (t : Table) (name : String) : List Format := t.formats.filter (·.name == name)

end Table

end CellCode.Opcode
