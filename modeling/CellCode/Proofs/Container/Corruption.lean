import CellCode.Proofs.Checksum
import CellCode.Proofs.Container.Truncation

/-!
# Corrupted containers are refused

The parts of a container differ in what they are good for. The header and the descriptors of the
cells say how many bytes everything else takes; all other bytes before the checksum are only
content. Where content alone was changed, the reader takes each part from the same place as before,
so it compares the checksum with that of the changed bytes. If the changes are close together, these
two are different.

## Key results

- `Part`, `parts`: what each byte of a container belongs to
- `Agrees`: bytes in which only content was changed
- `Tolerates`: a step that takes as many bytes, whatever their content is
- `tolerates_content`: the reader finds the checksum in its place, whatever the content is
- `read_burst`: a container with a short burst of errors in content or checksum is refused
-/

namespace CellCode.Container

-- Powers are those of the standard library, whatever else is in scope.
attribute [local instance (high)] instPowNat

/-! ## The parts of a container -/

/-- What a byte of a container belongs to. -/
inductive Part
  /-- The magic number, the flags, the widths and the counts. -/
  | header
  /-- The size of the cells' part. -/
  | size
  /-- The position of a root. -/
  | root
  /-- One of the two bytes that say how large a cell is. -/
  | descriptor
  /-- The bits of a cell. -/
  | data
  /-- The position of a reference. -/
  | reference
  | checksum
  deriving DecidableEq

/-- The part is before the checksum and has no influence on where other parts are. -/
def Part.isContent : Part → Bool
  | size | root | data | reference => true
  | header | descriptor | checksum => false

/-- The parts of the bytes of a cell. -/
def cellParts (width : Nat) (c : Cell) : List Part :=
  [Part.descriptor, .descriptor] ++ (List.replicate ((c.bits.length + 7) / 8) Part.data ++
    c.refs.flatMap fun _ => List.replicate width Part.reference)

/-- The parts of the bytes before the checksum. -/
def bodyParts (cells roots : List Cell) : List Part :=
  let width := byteWidth cells.length
  let payload := cells.flatMap (cellBytes (positions cells) width)
  List.replicate (6 + 3 * width) Part.header ++
    (List.replicate (byteWidth payload.length) Part.size ++
      ((roots.flatMap fun _ => List.replicate width Part.root) ++
        cells.flatMap (cellParts width)))

/-- The part that each byte of a container belongs to, given the cells in order. -/
def parts (cells roots : List Cell) : List Part :=
  bodyParts cells roots ++ List.replicate 4 .checksum

/-- There is a part for each byte of a cell. -/
theorem length_cellParts (table : Positions) (width : Nat) (c : Cell) :
    (cellParts width c).length = (cellBytes table width c).length := by
  simp [cellParts, cellBytes, Cell.descriptors, positionBytes, Bits.length_toTaggedBytes,
    List.length_flatMap]

/-- There is one part for each byte. -/
theorem length_bodyParts (cells roots : List Cell) (checksum : Bool) :
    (bodyParts cells roots).length = (body cells roots checksum).length := by
  -- Cell by cell, whatever the positions are.
  have hcells (table : Positions) (width : Nat) : (cells.flatMap (cellParts width)).length =
      (cells.flatMap (cellBytes table width)).length := by
    simp only [List.length_flatMap, length_cellParts table]
  simp only [bodyParts, body, List.length_append, hcells (positions cells),
    List.length_replicate, length_bigEndian]
  simp [magic, positionBytes, List.length_flatMap]
  omega

/-- Before the checksum there is no part of it. -/
theorem checksum_not_mem_bodyParts (cells roots : List Cell) :
    Part.checksum ∉ bodyParts cells roots := by
  simp [bodyParts, cellParts]

/-! ## Changed parts -/

/-- The bytes differ only in parts of this kind. -/
def DifferOnlyIn (kind : Part → Bool) (parts : List Part) (bytes bytes' : List UInt8) : Prop :=
  ∀ i : Nat, bytes'[i]? ≠ bytes[i]? → ∃ part, parts[i]? = some part ∧ kind part = true

namespace DifferOnlyIn

variable {kind : Part → Bool} {front rest : List Part} {bytes bytes' more more' : List UInt8}

/-- Where there is no part of the kind, nothing was changed. -/
theorem eq_of_fixed (h : DifferOnlyIn kind front bytes bytes')
    (hfixed : ∀ part ∈ front, kind part = false) : bytes' = bytes := by
  apply List.ext_getElem?
  intro i
  by_contra hne
  obtain ⟨part, hpart, hkind⟩ := h i hne
  rw [hfixed part (List.mem_of_getElem? hpart)] at hkind
  cases hkind

/-- Changes in a row of two parts are changes in the first one. -/
theorem left (h : DifferOnlyIn kind (front ++ rest) (bytes ++ more) (bytes' ++ more'))
    (hlength : front.length = bytes.length) (hlength' : bytes'.length = bytes.length) :
    DifferOnlyIn kind front bytes bytes' := by
  intro i hne
  have hlt : i < bytes.length := by
    -- Behind the end there is nothing to differ.
    by_contra hge
    rw [List.getElem?_eq_none (by omega), List.getElem?_eq_none (by omega)] at hne
    exact hne rfl
  have hi := h i
  rw [List.getElem?_append_left hlt, List.getElem?_append_left (by omega),
    List.getElem?_append_left (by omega)] at hi
  exact hi hne

/-- They are changes in the second one as well, counted from its start. -/
theorem right (h : DifferOnlyIn kind (front ++ rest) (bytes ++ more) (bytes' ++ more'))
    (hlength : front.length = bytes.length) (hlength' : bytes'.length = bytes.length) :
    DifferOnlyIn kind rest more more' := by
  intro i hne
  have hi := h (bytes.length + i)
  rw [List.getElem?_append_right (by omega), List.getElem?_append_right (by omega),
    List.getElem?_append_right (by omega), hlength, hlength', Nat.add_sub_cancel_left] at hi
  exact hi hne

end DifferOnlyIn

/-! ## Changed content -/

/-- The bytes are the same but for content. -/
inductive Agrees : List Part → List UInt8 → List UInt8 → Prop
  | nil : Agrees [] [] []
  | cons {part : Part} {parts : List Part} {b b' : UInt8} {bytes bytes' : List UInt8}
      (same : part.isContent = false → b' = b) (rest : Agrees parts bytes bytes') :
      Agrees (part :: parts) (b :: bytes) (b' :: bytes')

/-- Bytes that agree are as many. -/
theorem Agrees.length_eq {parts : List Part} {bytes bytes' : List UInt8}
    (h : Agrees parts bytes bytes') : bytes'.length = bytes.length := by
  induction h with
  | nil => rfl
  | cons _ _ ih => rw [List.length_cons, List.length_cons, ih]

/-- Bytes agree in a row when they agree in each part of it. -/
theorem Agrees.split (front rest : List Part) (bytes more bytes' : List UInt8)
    (h : Agrees (front ++ rest) (bytes ++ more) bytes') (hlength : front.length = bytes.length) :
    ∃ changed others, bytes' = changed ++ others ∧ Agrees front bytes changed ∧
      Agrees rest more others := by
  -- Induction on the parts in front.
  induction front generalizing bytes bytes' with
  | nil =>
    obtain rfl := List.length_eq_zero_iff.mp hlength.symm
    exact ⟨[], bytes', rfl, .nil, h⟩
  | cons part front ih =>
    cases bytes with
    | nil => cases hlength
    | cons b bytes =>
      cases h with
      | cons same h =>
        obtain ⟨changed, others, rfl, hfront, hrest⟩ := ih _ _ h (Nat.succ.inj hlength)
        exact ⟨_ :: changed, others, rfl, .cons same hfront, hrest⟩

/-- Where there is no content, nothing was changed. -/
theorem Agrees.eq_of_fixed (parts : List Part) (bytes bytes' : List UInt8)
    (h : Agrees parts bytes bytes') (hparts : ∀ part ∈ parts, part.isContent = false) :
    bytes' = bytes := by
  -- Induction on the bytes.
  induction h with
  | nil => rfl
  | cons same _ ih =>
    rw [List.forall_mem_cons] at hparts
    rw [same hparts.1, ih hparts.2]

/-- Bytes agree when they differ only where there is content. -/
theorem DifferOnlyIn.agrees (parts : List Part) (bytes bytes' : List UInt8)
    (h : DifferOnlyIn Part.isContent parts bytes bytes') (hlength : parts.length = bytes.length)
    (hlength' : bytes'.length = bytes.length) : Agrees parts bytes bytes' := by
  -- Induction on the parts, with a byte for each of them.
  induction parts generalizing bytes bytes' with
  | nil =>
    obtain rfl := List.length_eq_zero_iff.mp hlength.symm
    obtain rfl := List.length_eq_zero_iff.mp hlength'
    exact .nil
  | cons part parts ih =>
    cases bytes with
    | nil => cases hlength
    | cons b bytes =>
      cases bytes' with
      | nil => cases hlength'
      | cons b' bytes' =>
        have hrest : DifferOnlyIn Part.isContent parts bytes bytes' := fun i => h (i + 1)
        apply Agrees.cons _ (ih _ _ hrest (Nat.succ.inj hlength) (Nat.succ.inj hlength'))
        -- A byte without content was not changed, because a change would be content.
        intro hfixed
        by_contra hne
        obtain ⟨_, heq, hcontent⟩ := h 0 (by simpa using hne)
        cases heq
        rw [hfixed] at hcontent
        cases hcontent

/-! ## Steps that take as many bytes -/

/-- Whatever the content of the bytes is, the step takes all of them and finds something good,
    unless it misses the tag of a cell's bits. -/
def Tolerates {α : Type} (step : Read α) (parts : List Part) (bytes : List UInt8)
    (good : α → Prop) : Prop :=
  ∀ bytes', Agrees parts bytes bytes' → ∀ position rest,
    step.run ⟨position, bytes' ++ rest⟩ = .error .missingTag ∨
      ∃ a, good a ∧
        step.run ⟨position, bytes' ++ rest⟩ = .ok (a, ⟨position + bytes.length, rest⟩)

variable {α β : Type} {good : α → Prop} {good' : β → Prop}

/-- A step that takes nothing finds what it finds. -/
theorem tolerates_pure (a : α) (h : good a) : Tolerates (pure a) [] [] good := by
  intro bytes' hagrees position rest
  cases hagrees
  exact .inr ⟨a, h, rfl⟩

/-- A missing tag is among the outcomes. -/
theorem tolerates_missingTag (parts : List Part) (bytes : List UInt8) :
    Tolerates (throw .missingTag) parts bytes good :=
  fun _ _ _ _ => .inl rfl

/-- A step and then another take bytes and then others. -/
theorem Tolerates.bind {step : Read α} {next : α → Read β} {front rest : List Part}
    {bytes more : List UInt8} (h : Tolerates step front bytes good)
    (hlength : front.length = bytes.length)
    (hnext : ∀ a, good a → Tolerates (next a) rest more good') :
    Tolerates (step >>= next) (front ++ rest) (bytes ++ more) good' := by
  intro bytes' hagrees position others
  -- The bytes are cut where the first step ends, and what follows belongs to the second one.
  obtain ⟨changed, changed', rfl, hfront, hrest⟩ := hagrees.split _ _ _ _ _ hlength
  rw [StateT.run_bind, List.append_assoc]
  rcases h changed hfront position (changed' ++ others) with herror | ⟨a, ha, hrun⟩
  · rw [herror]
    exact .inl rfl
  · rw [hrun]
    show (next a).run _ = _ ∨ ∃ b, _ ∧ (next a).run _ = _
    rw [List.length_append, ← Nat.add_assoc]
    exact hnext a ha changed' hrest _ others

/-- A step behind which nothing is taken any more. -/
theorem Tolerates.bind_pure {step : Read α} {next : α → Read β} {parts : List Part}
    {bytes : List UInt8} (h : Tolerates step parts bytes good)
    (hlength : parts.length = bytes.length)
    (hnext : ∀ a, good a → Tolerates (next a) [] [] good') :
    Tolerates (step >>= next) parts bytes good' := by
  have hboth := h.bind hlength hnext
  rwa [List.append_nil, List.append_nil] at hboth

/-- What is no content is read as it was written. -/
theorem Reads.tolerates {step : Read α} {bytes : List UInt8} {a : α} (h : Reads step bytes a)
    (parts : List Part) (hparts : ∀ part ∈ parts, part.isContent = false) :
    Tolerates step parts bytes (· = a) := by
  intro bytes' hagrees position rest
  rw [hagrees.eq_of_fixed _ _ _ hparts]
  exact .inr ⟨a, rfl, h position rest⟩

/-- What is no content is found as it was written, and the next step goes on from there. -/
theorem Reads.tolerates_bind {step : Read α} {next : α → Read β} {front rest : List Part}
    {bytes more : List UInt8} {a : α} (h : Reads step bytes a)
    (hfront : ∀ part ∈ front, part.isContent = false) (hlength : front.length = bytes.length)
    (hnext : Tolerates (next a) rest more good') :
    Tolerates (step >>= next) (front ++ rest) (bytes ++ more) good' := by
  apply (h.tolerates front hfront).bind hlength
  rintro _ rfl
  exact hnext

/-- Bytes are taken as they are. -/
theorem tolerates_take (n : Nat) (parts : List Part) (bytes : List UInt8)
    (h : bytes.length = n) : Tolerates (take n) parts bytes fun _ => True := by
  intro bytes' hagrees position rest
  have hlength := hagrees.length_eq
  refine .inr ⟨bytes', trivial, ?_⟩
  rw [← hlength]
  exact reads_take n bytes' (by omega) position rest

theorem tolerates_number (width : Nat) (parts : List Part) (bytes : List UInt8)
    (hlength : parts.length = bytes.length) (h : bytes.length = width) :
    Tolerates (number width) parts bytes fun _ => True :=
  (tolerates_take width parts bytes h).bind_pure hlength fun _ _ => tolerates_pure _ trivial

theorem tolerates_many (item : Read β) (parts : α → List Part) (bytes : α → List UInt8)
    (items : List α) (hlength : ∀ a ∈ items, (parts a).length = (bytes a).length)
    (h : ∀ a ∈ items, Tolerates item (parts a) (bytes a) fun _ => True) :
    Tolerates (many item items.length) (items.flatMap parts) (items.flatMap bytes)
      fun _ => True := by
  -- Induction on the items.
  induction items with
  | nil => exact tolerates_pure [] trivial
  | cons a items ih =>
    rw [List.forall_mem_cons] at h hlength
    have hothers : (items.flatMap parts).length = (items.flatMap bytes).length := by
      rw [List.length_flatMap, List.length_flatMap, List.map_congr_left hlength.2]
    exact h.1.bind hlength.1 fun _ _ =>
      (ih hlength.2 h.2).bind_pure hothers fun _ _ => tolerates_pure _ trivial

/-- A position can be changed to any other. -/
theorem tolerates_positions (table : Positions) (width : Nat) (part : Part) (cells : List Cell) :
    Tolerates (many (number width) cells.length)
      (cells.flatMap fun _ => List.replicate width part)
      (cells.flatMap (positionBytes table width)) fun _ => True := by
  apply tolerates_many
  · simp [positionBytes]
  · intro c _
    exact tolerates_number width _ _ (by simp [positionBytes]) (by simp [positionBytes])

/-! ## Containers -/

/-- The descriptors of a cell say how many bytes it takes. -/
theorem tolerates_rawCell (table : Positions) (width : Nat) (c : Cell) (hfits : c.Fits) :
    Tolerates (rawCell width) (cellParts width c) (cellBytes table width c) fun _ => True := by
  obtain ⟨hbits, hrefCount⟩ := hfits
  rw [Cell.maxBits] at hbits
  rw [Cell.maxRefs] at hrefCount
  have hcount := c.refCount_eq
  -- Behind the bits there are only references, of which any will do.
  have hread (bits : Bits) : Tolerates
      (many (number width) c.refs.length >>= fun refs => pure (RawCell.mk bits refs))
      (c.refs.flatMap fun _ => List.replicate width .reference)
      (c.refs.flatMap (positionBytes table width)) fun _ => True :=
    (tolerates_positions table width .reference c.refs).bind_pure
      (by simp [positionBytes, List.length_flatMap]) fun _ _ => tolerates_pure _ trivial
  rw [cellParts, cellBytes, Cell.descriptors, List.append_assoc]
  -- Once the descriptors are read as they were written, it is known how much is to be taken.
  show Tolerates (rawCell width) ([.descriptor] ++ ([.descriptor] ++ _))
    ([UInt8.ofNat c.refCount] ++
      ([UInt8.ofNat (c.bits.length / 8 + (c.bits.length + 7) / 8)] ++ _)) _
  unfold rawCell
  apply (reads_byte c.refCount (by omega)).tolerates_bind (by simp [Part.isContent]) rfl
  apply (reads_byte _ (by omega)).tolerates_bind (by simp [Part.isContent]) rfl
  rw [if_neg (by omega)]
  dsimp only
  rw [if_neg (by rw [Cell.maxRefs]; omega), Nat.mod_eq_of_lt (by omega : c.refCount < 8), hcount]
  -- Behind the descriptors come as many bytes as they say.
  apply (tolerates_take _ _ _ (length_toTaggedBytes_of_descriptor c.bits)).bind
    (by simp [Bits.length_toTaggedBytes])
  intro bytes _
  -- Only the tag of the last byte can be missing.
  split
  · split
    · exact tolerates_missingTag _ _
    · exact hread _
  · exact hread _

/-- The cells are taken one after the other, whatever their content is. -/
theorem tolerates_rawCells (table : Positions) (width : Nat) (cells : List Cell)
    (hfits : ∀ c ∈ cells, c.Fits) :
    Tolerates (many (rawCell width) cells.length) (cells.flatMap (cellParts width))
      (cells.flatMap (cellBytes table width)) fun _ => True := by
  apply tolerates_many
  · intro c _
    exact length_cellParts _ width c
  · intro c hc
    exact tolerates_rawCell _ width c (hfits c hc)

/-- The header is cut into what the steps of the reader take of it. -/
private theorem replicate_header (width : Nat) (part : Part) :
    List.replicate (6 + 3 * width) part =
      List.replicate 4 part ++ (List.replicate 1 part ++ (List.replicate 1 part ++
        (List.replicate width part ++ (List.replicate width part ++
          List.replicate width part)))) := by
  simp only [List.replicate_append_replicate]
  congr 1
  omega

/-- A header is no content. -/
private theorem isContent_header (n : Nat) :
    ∀ part ∈ List.replicate n Part.header, part.isContent = false := by
  intro part hpart
  rw [List.eq_of_mem_replicate hpart]
  rfl

/-- The reader takes all bytes before the checksum, whatever their content is, and then looks for
    the checksum. -/
theorem tolerates_content {cells : List Cell} (roots : List Cell)
    (hfits : ∀ c ∈ cells, c.Fits) (hcount : cells.length < 256 ^ 4)
    (hroots : roots.length < 256 ^ byteWidth cells.length) :
    Tolerates content (bodyParts cells roots) (body cells roots true)
      fun found => found.2.2 = true := by
  -- The widths in the header are small enough for the fields that they are written in.
  have hwidth := one_le_byteWidth cells.length
  have hwidth' := byteWidth_le cells.length 4 (by omega) hcount
  have hlt := lt_pow_byteWidth cells.length
  simp only [body, bodyParts, List.append_assoc]
  generalize byteWidth cells.length = width at *
  have hsizeWidth' := byteWidth_payload_le (positions cells) width hwidth' hfits hcount
  generalize (cells.flatMap (cellBytes (positions cells) width)).length = size at *
  have hsizeWidth := one_le_byteWidth size
  generalize byteWidth size = sizeWidth at *
  obtain ⟨hflags, hflagsWidth, hindex, hchecksum⟩ := flags_parts true width hwidth'
  simp only [replicate_header, List.append_assoc]
  show Tolerates content _ (magic ++ ([UInt8.ofNat (flags true width)] ++
    ([UInt8.ofNat sizeWidth] ++ _))) _
  unfold content
  -- The header is as it was written, so each of its steps finds what it found before.
  apply (reads_take 4 magic rfl).tolerates_bind (isContent_header 4) rfl
  rw [if_neg (by simp)]
  apply (reads_byte _ hflags).tolerates_bind (isContent_header 1) rfl
  rw [hflagsWidth]
  dsimp only
  rw [if_neg (by omega)]
  apply (reads_byte sizeWidth (by omega)).tolerates_bind (isContent_header 1) rfl
  rw [if_neg (by omega)]
  apply (reads_number width cells.length hlt).tolerates_bind (isContent_header width) (by simp)
  apply (reads_number width roots.length hroots).tolerates_bind (isContent_header width) (by simp)
  apply (reads_number width 0 (Nat.pow_pos (by omega))).tolerates_bind (isContent_header width)
    (by simp)
  rw [if_neg (by simp)]
  -- From here on any content will do.
  apply (tolerates_number _ _ _ (by simp) (by simp)).bind (by simp)
  intro _ _
  apply (tolerates_positions _ _ _ _).bind (by simp [positionBytes, List.length_flatMap])
  intro _ _
  rw [if_neg hindex]
  -- The cells come last, and then only the flag for the checksum is returned.
  apply (tolerates_rawCells _ width cells hfits).bind_pure
  · simp only [List.length_flatMap, length_cellParts (positions cells)]
  · intro _ _
    exact tolerates_pure _ hchecksum

/-! ## Bursts -/

/-- Two byte strings of one length that are not the same, and differ only within so many bytes in
    a row. -/
structure Burst (width : Nat) (bytes bytes' : List UInt8) : Prop where
  length_eq : bytes'.length = bytes.length
  ne : bytes' ≠ bytes
  within : ∃ start, ∀ i : Nat, bytes'[i]? ≠ bytes[i]? → start ≤ i ∧ i < start + width

/-- Such byte strings are the same before a window and behind it. -/
theorem exists_window (width start : Nat) (bytes bytes' : List UInt8)
    (hlength : bytes'.length = bytes.length)
    (h : ∀ i : Nat, bytes'[i]? ≠ bytes[i]? → start ≤ i ∧ i < start + width) :
    ∃ before window window' after, bytes = before ++ window ++ after ∧
      bytes' = before ++ window' ++ after ∧ window.length ≤ width ∧
      window'.length = window.length := by
  -- Outside the window nothing was changed.
  have hsame (i : Nat) (hi : i < start ∨ start + width ≤ i) : bytes'[i]? = bytes[i]? := by
    by_contra hne
    have := h i hne
    omega
  -- Before the window the bytes are the same by index.
  have hbefore : bytes'.take start = bytes.take start := by
    apply List.ext_getElem?
    intro i
    rw [List.getElem?_take, List.getElem?_take]
    split
    · exact hsame i (by omega)
    · rfl
  have hafter : bytes'.drop (start + width) = bytes.drop (start + width) := by
    apply List.ext_getElem?
    intro i
    rw [List.getElem?_drop, List.getElem?_drop]
    exact hsame _ (by omega)
  -- Either byte string is cut before the window and behind it.
  have hcut (bytes : List UInt8) : bytes =
      bytes.take start ++ (bytes.drop start).take width ++ bytes.drop (start + width) := by
    rw [List.append_assoc, ← List.drop_drop, List.take_append_drop, List.take_append_drop]
  refine ⟨_, _, (bytes'.drop start).take width, _, hcut bytes, ?_, List.length_take_le _ _, ?_⟩
  · rw [← hbefore, ← hafter]
    exact hcut bytes'
  · rw [List.length_take, List.length_take, List.length_drop, List.length_drop, hlength]

/-- A container is refused when the checksum behind what was taken is that of other bytes. -/
theorem read_mismatch (bytes sum : List UInt8) (found : List Nat × List RawCell × Bool)
    (hcontent : content.run ⟨0, bytes ++ sum⟩ = .ok (found, ⟨bytes.length, sum⟩))
    (hchecksum : found.2.2 = true) (hlength : sum.length = 4)
    (hne : (Checksum.crc32c bytes).toNat ≠ ofLittleEndian sum) :
    read (bytes ++ sum) = .error .checksumMismatch := by
  obtain ⟨roots, cells, checksum⟩ := found
  have hchecksum : checksum = true := hchecksum
  subst hchecksum
  have htake := reads_take 4 sum hlength bytes.length []
  -- The checksum is all that is left, so nothing remains behind it.
  rw [List.append_nil] at htake
  rw [read, hcontent]
  show ((take 4).run ⟨bytes.length, sum⟩ >>= _) = _
  rw [htake]
  show (if (Checksum.crc32c ((bytes ++ sum).take bytes.length)).toNat ≠ ofLittleEndian sum
    then _ else _) = _
  rw [List.take_left, if_pos hne]
  rfl

/-- The checksum was written for other bytes when a window of them was changed. -/
theorem crc32c_ne_of_burst (bytes bytes' sum : List UInt8)
    (hburst : Burst 4 (bytes ++ sum) (bytes' ++ sum)) :
    Checksum.crc32c bytes' ≠ Checksum.crc32c bytes := by
  obtain ⟨hlength, hne, start, hwithin⟩ := hburst
  -- The checksum was not changed, so the burst lies in the bytes before it.
  rw [List.length_append, List.length_append] at hlength
  have hlength : bytes'.length = bytes.length := by omega
  have hwindow : ∀ i : Nat, bytes'[i]? ≠ bytes[i]? → start ≤ i ∧ i < start + 4 := by
    intro i hi
    apply hwithin
    by_cases hlt : i < bytes.length
    · -- A changed byte of the whole is one of the bytes before the checksum.
      rwa [List.getElem?_append_left (by omega), List.getElem?_append_left hlt]
    · rw [List.getElem?_eq_none (by omega), List.getElem?_eq_none (by omega)] at hi
      exact absurd rfl hi
  obtain ⟨before, window, window', after, rfl, rfl, hle, hsame⟩ :=
    exists_window 4 start bytes bytes' hlength hwindow
  -- Inside the window the bytes are not all the same, and a checksum tells such byte strings apart.
  apply Ne.symm
  apply Checksum.crc32c_ne_of_window _ _ _ _ hle hsame
  rintro rfl
  exact hne rfl

/-- A container with a checksum is refused when up to four bytes in a row were changed, all of them
    in the checksum or all of them in the content before it. Then the checksum does not match, or
    the bits of a cell have lost their tag. -/
theorem read_burst (roots : List Cell) (bytes bytes' : List UInt8)
    (hcapacity : ∀ r ∈ roots, r.InCapacity) (hcount : (Cell.parentsFirst roots).length < 2 ^ 32)
    (h : write roots true = .ok bytes) (hburst : Burst 4 bytes bytes')
    (hwhere : DifferOnlyIn (· = .checksum) (parts (Cell.parentsFirst roots) roots) bytes bytes' ∨
      DifferOnlyIn Part.isContent (parts (Cell.parentsFirst roots) roots) bytes bytes') :
    read bytes' = .error .checksumMismatch ∨ read bytes' = .error .missingTag := by
  -- The container consists of its body and the checksum of that.
  obtain ⟨hroots, hfew, rfl⟩ := of_write_eq_ok roots true bytes h
  have hne := Cell.parentsFirst_ne_nil roots hroots
  have hfits := fits_parentsFirst hcapacity
  have hcontent := reads_content hne hfits true hcount hfew
  have htolerates := tolerates_content roots hfits hcount hfew
  have hlength := length_bodyParts (Cell.parentsFirst roots) roots true
  rw [if_pos rfl] at hburst hwhere
  rw [parts] at hwhere
  have hbody := checksum_not_mem_bodyParts (Cell.parentsFirst roots) roots
  generalize bodyParts (Cell.parentsFirst roots) roots = front at *
  generalize body (Cell.parentsFirst roots) roots true = taken at *
  have hsum : ofLittleEndian (littleEndian 4 (Checksum.crc32c taken).toNat) =
      (Checksum.crc32c taken).toNat :=
    ofLittleEndian_littleEndian 4 _ (Checksum.crc32c taken).toNat_lt
  have hsumLength := length_littleEndian 4 (Checksum.crc32c taken).toNat
  generalize littleEndian 4 (Checksum.crc32c taken).toNat = sum at *
  -- What was changed is as long, so it is cut in the same place.
  obtain ⟨taken', sum', rfl, htaken', hsum'⟩ : ∃ taken' sum', bytes' = taken' ++ sum' ∧
      taken'.length = taken.length ∧ sum'.length = sum.length := by
    have hlength := hburst.length_eq
    rw [List.length_append] at hlength
    refine ⟨bytes'.take taken.length, bytes'.drop taken.length, (List.take_append_drop ..).symm,
      ?_, ?_⟩
    · rw [List.length_take]
      omega
    · rw [List.length_drop]
      omega
  rcases hwhere with hwhere | hwhere
  · -- Another checksum is compared with that of the same bytes.
    obtain rfl := (hwhere.left hlength htaken').eq_of_fixed fun part hpart =>
      decide_eq_false (ne_of_mem_of_not_mem hpart hbody)
    left
    apply read_mismatch _ _ _ (by simpa using hcontent 0 sum') rfl (by omega)
    intro heq
    apply hburst.ne
    rw [Checksum.ofLittleEndian_inj sum' sum hsum' (by rw [← heq, hsum])]
  · -- The same checksum is found in its place, and it is compared with that of other bytes.
    obtain rfl := (hwhere.right hlength htaken').eq_of_fixed (by simp [Part.isContent])
    have hagrees := (hwhere.left hlength htaken').agrees _ _ _ hlength htaken'
    -- The reader takes all of the changed body, or it misses a tag.
    rcases htolerates taken' hagrees 0 sum' with hrun | ⟨found, hfound, hrun⟩
    · right
      rw [read, hrun]
      rfl
    · left
      rw [Nat.zero_add, ← htaken'] at hrun
      apply read_mismatch _ _ found hrun hfound hsumLength
      rw [hsum]
      exact fun heq => crc32c_ne_of_burst _ _ _ hburst (UInt32.toNat_inj.mp heq)

/-- The last reference of the first cell and the data of the second are two bytes apart. -/
theorem parts_nestedRoots : parts (Cell.parentsFirst Cell.nestedRoots) Cell.nestedRoots =
    List.replicate 9 Part.header ++ [Part.size, .root, .root, .descriptor, .descriptor, .reference,
      .reference, .descriptor, .descriptor, .data] ++ List.replicate 4 Part.checksum := by
  have hrefs : Cell.upperCell.refs = [Cell.lowerCell, Cell.lowerCell] ∧
      Cell.lowerCell.refs = [] := ⟨rfl, rfl⟩
  have hbits : Cell.upperCell.bits.length = 0 ∧ Cell.lowerCell.bits.length = 1 := ⟨rfl, rfl⟩
  have hwidth (n : Nat) (h : n < 256) : byteWidth n = 1 := by rw [byteWidth, if_pos h]
  rw [Cell.parentsFirst_nestedRoots]
  simp [parts, bodyParts, cellParts, hwidth, hrefs, hbits, Cell.nestedRoots,
    ← length_cellParts (positions _)]

/-- The last reference of the first cell and the data of the second are changed together, and the
    descriptors between them are kept. -/
def changed (bytes : List UInt8) : List UInt8 :=
  (bytes.modify 15 (~~~ ·)).modify 18 (~~~ ·)

/-- Only these two bytes are changed. -/
theorem getElem?_changed (bytes : List UInt8) (i : Nat) (hne : (changed bytes)[i]? ≠ bytes[i]?) :
    i = 15 ∨ i = 18 := by
  by_contra hother
  apply hne
  rw [changed, List.getElem?_modify, List.getElem?_modify]
  simp [show 15 ≠ i by omega, show 18 ≠ i by omega]

/-- The changed bytes make a burst. -/
theorem changed_burst (bytes : List UInt8) (h : 15 < bytes.length) :
    Burst 4 bytes (changed bytes) where
  length_eq := by simp [changed]
  ne := by
    intro heq
    have hbyte := congrArg (·[15]?) heq
    simp [changed, h] at hbyte
  -- Both changes are within four bytes, from the fifteenth on.
  within := by
    refine ⟨15, fun i hne => ?_⟩
    have := getElem?_changed bytes i hne
    omega

/-- A container is refused when the last reference of its first cell and the data of its second
    were changed. -/
theorem read_burst_nestedRoots :
    (∀ r ∈ Cell.nestedRoots, r.InCapacity) ∧
      (Cell.parentsFirst Cell.nestedRoots).length < 2 ^ 32 ∧
      ∃ bytes, write Cell.nestedRoots true = .ok bytes ∧ Burst 4 bytes (changed bytes) ∧
        DifferOnlyIn Part.isContent (parts (Cell.parentsFirst Cell.nestedRoots) Cell.nestedRoots)
          bytes (changed bytes) ∧
        (read (changed bytes) = .error .checksumMismatch ∨
          read (changed bytes) = .error .missingTag) := by
  have hcount : (Cell.parentsFirst Cell.nestedRoots).length < 2 ^ 32 := by
    simp [Cell.parentsFirst_nestedRoots]
  have hburst (bytes : List UInt8) (h : write Cell.nestedRoots true = .ok bytes) :
      Burst 4 bytes (changed bytes) := by
    rw [write_nestedRoots] at h
    cases h
    have hlength := congrArg List.length parts_nestedRoots
    rw [parts, List.length_append, length_bodyParts _ _ true] at hlength
    apply changed_burst
    simp at hlength
    simp [hlength]
  have hwhere (bytes : List UInt8) : DifferOnlyIn Part.isContent
      (parts (Cell.parentsFirst Cell.nestedRoots) Cell.nestedRoots) bytes (changed bytes) := by
    intro i hne
    rw [parts_nestedRoots]
    -- The fifteenth byte belongs to a reference and the eighteenth to the bits of a cell.
    rcases getElem?_changed bytes i hne with rfl | rfl
    · exact ⟨.reference, rfl, rfl⟩
    · exact ⟨.data, rfl, rfl⟩
  exact ⟨Cell.nestedRoots_inCapacity, hcount, _, write_nestedRoots,
    hburst _ write_nestedRoots, hwhere _,
    read_burst _ _ _ Cell.nestedRoots_inCapacity hcount write_nestedRoots
      (hburst _ write_nestedRoots) (.inr (hwhere _))⟩

end CellCode.Container
