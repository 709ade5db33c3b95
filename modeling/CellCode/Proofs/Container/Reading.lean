import CellCode.Proofs.Container.Bytes

/-!
# Reading what was written

A step of reading takes its bytes from the front and leaves the others. Steps that follow each
other read bytes that follow each other, so each part of a container is read back by the step
for it.

## Key results

- `Reads`: a step reads a value from these bytes, whatever follows them
- `Reads.bind`, `reads_many`: steps in a row
- `reads_rawCell`: a cell is read back with the positions of its references
-/

namespace CellCode.Container

-- Powers are those of the standard library, whatever else is in scope.
attribute [local instance (high)] instPowNat

/-- The step reads the value from these bytes and leaves what follows them. -/
def Reads {α : Type} (step : Read α) (bytes : List UInt8) (value : α) : Prop :=
  ∀ position rest, step.run ⟨position, bytes ++ rest⟩ = .ok (value, ⟨position + bytes.length, rest⟩)

variable {α β : Type}

theorem Reads.pure (value : α) : Reads (pure value) [] value := by
  intro position rest
  rfl

/-- A step and then another read bytes and then others. -/
theorem Reads.bind {step : Read α} {next : α → Read β} {bytes more : List UInt8} {a : α} {b : β}
    (h : Reads step bytes a) (hnext : Reads (next a) more b) :
    Reads (step >>= next) (bytes ++ more) b := by
  intro position rest
  rw [StateT.run_bind, List.append_assoc, h]
  show (next a).run _ = _
  rw [hnext, List.length_append, Nat.add_assoc]

/-- A step behind which nothing is read any more. -/
theorem Reads.bind_pure {step : Read α} {next : α → Read β} {bytes : List UInt8} {a : α} {b : β}
    (h : Reads step bytes a) (hnext : Reads (next a) [] b) : Reads (step >>= next) bytes b := by
  have hboth := h.bind hnext
  rwa [List.append_nil] at hboth

theorem splitExactly_append (bytes rest : List α) :
    splitExactly bytes.length (bytes ++ rest) = some (bytes, rest) := by
  induction bytes with
  | nil => rfl
  | cons b bytes ih => simp [splitExactly, ih]

theorem reads_take (n : Nat) (bytes : List UInt8) (h : bytes.length = n) :
    Reads (take n) bytes bytes := by
  intro position rest
  subst h
  unfold take
  simp only [StateT.run_bind, StateT.run_get, pure_bind, splitExactly_append, StateT.run_set,
    StateT.run_pure]
  rfl

theorem reads_number (width n : Nat) (h : n < 256 ^ width) :
    Reads (number width) (bigEndian width n) n := by
  apply (reads_take width (bigEndian width n) (length_bigEndian width n)).bind_pure
  rw [ofBigEndian_bigEndian width n h]
  exact Reads.pure n

/-- A byte is a number of one byte. -/
theorem reads_byte (n : Nat) (h : n < 256) : Reads (number 1) [UInt8.ofNat n] n := by
  have hread := reads_number 1 n h
  rwa [bigEndian, bigEndian, Nat.pow_zero, Nat.div_one] at hread

/-- Items that stand one after the other are read in order. -/
theorem reads_many (item : Read β) (bytes : α → List UInt8) (value : α → β) (items : List α)
    (h : ∀ a ∈ items, Reads item (bytes a) (value a)) :
    Reads (many item items.length) (items.flatMap bytes) (items.map value) := by
  induction items with
  | nil => exact Reads.pure []
  | cons a items ih =>
    rw [List.forall_mem_cons] at h
    exact h.1.bind ((ih h.2).bind_pure (Reads.pure _))

/-- The second descriptor of a cell says how many bytes its bits take. -/
theorem length_toTaggedBytes_of_descriptor (bits : Bits) : bits.toTaggedBytes.length =
    (bits.length / 8 + (bits.length + 7) / 8 + 1) / 2 := by
  rw [Bits.length_toTaggedBytes]
  omega

/-- A cell is read back, with the positions of its references in their places. -/
theorem reads_rawCell (width : Nat) (c : Cell) (position : Cell → Nat) (hfits : c.Fits)
    (hposition : ∀ r ∈ c.refs, position r < 256 ^ width) :
    Reads (rawCell width) (Cell.descriptors c.bits c.refCount ++ c.bits.toTaggedBytes ++
      c.refs.flatMap fun r => bigEndian width (position r)) ⟨c.bits, c.refs.map position⟩ := by
  obtain ⟨hbits, hrefs⟩ := hfits
  rw [Cell.maxBits] at hbits
  rw [Cell.maxRefs] at hrefs
  have hcount := c.refCount_eq
  rw [Cell.descriptors, List.append_assoc]
  show Reads (rawCell width) ([UInt8.ofNat c.refCount] ++
    ([UInt8.ofNat (c.bits.length / 8 + (c.bits.length + 7) / 8)] ++ _)) _
  unfold rawCell
  apply (reads_byte c.refCount (by omega)).bind
  apply (reads_byte (c.bits.length / 8 + (c.bits.length + 7) / 8) (by omega)).bind
  rw [if_neg (by omega)]
  dsimp only
  rw [if_neg (by rw [Cell.maxRefs]; omega)]
  apply (reads_take _ _ (length_toTaggedBytes_of_descriptor c.bits)).bind
  rw [Bits.ofBytes_toTaggedBytes, Bits.fill, Nat.mod_eq_of_lt (by omega : c.refCount < 8), hcount]
  have hread : Reads
      (many (number width) c.refs.length >>= fun refs => pure (RawCell.mk c.bits refs))
      (c.refs.flatMap fun r => bigEndian width (position r)) ⟨c.bits, c.refs.map position⟩ :=
    (reads_many _ _ position c.refs fun r hr => reads_number width _ (hposition r hr)).bind_pure
      (Reads.pure _)
  -- The second descriptor is odd exactly when the last byte is tagged.
  by_cases hfull : c.bits.length % 8 = 0
  · rw [if_pos hfull, if_neg (by omega), pure_bind]
    exact hread
  · rw [if_neg hfull, if_pos (by omega), Bits.untag?_tag]
    dsimp only
    rw [pure_bind]
    exact hread

end CellCode.Container
