import CellCode.Proofs.Cell.Reading
import CellCode.Proofs.Opcode.Holding
import CellCode.Proofs.Opcode.Lookup

/-!
# Encoded instructions are decoded again

Encoding adds bits and references for each operand, and decoding takes exactly these from the
front of a slice, whatever stands behind them.

* `Field.decode_encode`    one operand
* `Format.decode_encode`   all operands of an instruction
* `Table.find?_encode`     the format itself is found again, if no longer opcode shadows it
-/

namespace CellCode

-- Powers and sums are those of the standard library, whatever else is in scope.
attribute [local instance (high)] instPowNat Zero.ofOfNat0

namespace Field

/-- The operand that decoding finds where this one was encoded: code and cells are given by
    the cell that was built for them, and only code in a reference keeps that cell as source. -/
def held : Field → Operand Fragment → Operand Cell
  | _, .integer v => .integer v
  | _, .stack i => .stack i
  | _, .control i => .control i
  | _, .bits b => .bits b
  | _, .cell c => .cell c
  | cell, .code f _ => .cell f.builder.cell
  | code, .code f _ => .code f.builder.cell (some f.builder.cell)
  | _, .code f _ => .code f.builder.cell none
  | _, .marker => .marker

/-- The bits that an operand takes at least. -/
def leastWidth : Field → Nat
  | stack width => width
  | control width => width
  | unsigned width _ => width
  | signed width => width
  | tiny => 4
  | code => 0
  | cell => 0
  | inlineCode => 4
  | longInlineCode => 9
  | shortSlice => 8

/-- A field whose numbers can be told apart: a signed one has a bit for the sign. -/
def Proper : Field → Prop
  | signed width => 0 < width
  | _ => True

instance (field : Field) : Decidable field.Proper := by
  cases field <;> (unfold Proper; infer_instance)

/-- What encoding an operand adds, and that decoding takes just that. -/
structure Takes (field : Field) (operand : Operand Fragment) (bits : Bits)
    (refs : List Cell) : Prop where
  least : field.leastWidth ≤ bits.length
  decode : ∀ (s : Slice) (more : Bits) (moreRefs : List Cell),
    s.Shows (bits ++ more) (refs ++ moreRefs) →
      ∃ rest, field.decode s = .ok (field.held operand, rest) ∧ rest.Shows more moreRefs

/-- A read that succeeds decodes, where there is no completion tag to take off. -/
private theorem decode_of_read (field : Field) (s rest : Slice) (operand : Operand Cell)
    (hread : field.read s = .ok (operand, rest)) (hplain : ∀ b, operand ≠ .bits b) :
    field.decode s = .ok (operand, rest) := by
  simp only [decode, hread]
  unfold complete
  split
  · exact absurd rfl (hplain _)
  · rfl

/-! ## Numbers -/

/-- An unsigned number in range reads back from its bits. -/
private theorem unsignedBits_eq_ok (value : Int) (width : Nat) (bits : Bits)
    (h : unsignedBits value width = .ok bits) :
    bits.length = width ∧ (bits.toNat : Int) = value := by
  unfold unsignedBits at h
  split at h
  · rename_i hrange
    cases h
    refine ⟨Bits.length_ofNat _ _, ?_⟩
    have hlt : value.toNat < 2 ^ width := by
      -- The number is not negative and below `2 ^ width`, so no bit of it is lost.
      have : ((2 ^ width : Nat) : Int) = 2 ^ width := Int.natCast_pow 2 width
      omega
    rw [Bits.toNat_ofNat, Nat.mod_eq_of_lt hlt]
    omega
  · cases h

private theorem signedBits_eq_ok (value : Int) (width : Nat) (bits : Bits) (hwidth : 0 < width)
    (h : signedBits value width = .ok bits) :
    bits.length = width ∧ Bits.signed bits.length bits.toNat = value := by
  unfold signedBits at h
  dsimp only at h
  split at h
  · rename_i hrange
    cases h
    rw [Bits.length_ofInt]
    exact ⟨rfl, Bits.signed_ofInt width value hwidth hrange⟩
  · cases h

/-- A number from -5 to 10 reads back from its four lowest bits. -/
private theorem tiny_ofInt (value : Int) (hrange : -5 ≤ value ∧ value ≤ 10) :
    ((((Bits.ofInt 4 value).toNat + 5) % 16 : Nat) : Int) - 5 = value := by
  -- Only the remainder by 16 is written.
  have hnat : (Bits.ofInt 4 value).toNat = (value % 16).toNat := by
    rw [Bits.ofInt, Bits.toNat_ofNat]
    show (value % 16).toNat % 16 = _
    omega
  rw [hnat]
  omega

/-! ## References -/

/-- References are read in order. -/
private theorem loadRefs_shows (refs moreRefs : List Cell) (s : Slice) (bits : Bits)
    (h : s.Shows bits (refs ++ moreRefs)) :
    ∃ rest, read.loadRefs refs.length s = .ok (refs, rest) ∧ rest.Shows bits moreRefs := by
  -- Induction on the references: each read takes the one in front.
  induction refs generalizing s with
  | nil => exact ⟨s, rfl, h⟩
  | cons ref refs ih =>
    obtain ⟨s₁, hload, hs₁⟩ := h.loadRef
    obtain ⟨s₂, hloads, hs₂⟩ := ih s₁ hs₁
    refine ⟨s₂, ?_, hs₂⟩
    simp only [List.length_cons, read.loadRefs, hload, bind, Except.bind, hloads]
    rfl

/-! ## One operand -/

/-- An operand that is read as one unsigned number. -/
private theorem takes_number (field : Field) (operand : Operand Fragment) (bits : Bits)
    (width : Int) (value : Nat → Operand Cell) (hwidth : width = (bits.length : Nat))
    (hleast : field.leastWidth = bits.length)
    (hread : ∀ s, field.read s = (do
      let (n, s) ← s.loadUInt width
      return (value n, s)))
    (hheld : field.held operand = value bits.toNat) (hplain : ∀ n b, value n ≠ .bits b) :
    field.Takes operand bits [] where
  least := Nat.le_of_eq hleast
  decode := by
    intro s more moreRefs h
    obtain ⟨rest, hload, hrest⟩ := h.loadUInt width hwidth
    refine ⟨rest, ?_, hrest⟩
    rw [hheld]
    apply decode_of_read
    · rw [hread, hload]
      rfl
    · exact hplain _

/-- A signed number is read as one number and its sign. -/
private theorem takes_signed (width : Nat) (value : Int) (bits : Bits)
    (hbits : bits.length = width ∧ Bits.signed bits.length bits.toNat = value) :
    (signed width).Takes (.integer value) bits [] where
  least := Nat.le_of_eq hbits.1.symm
  decode := by
    intro s more moreRefs h
    obtain ⟨rest, hload, hrest⟩ := h.loadInt width (by omega)
    refine ⟨rest, ?_, hrest⟩
    apply decode_of_read
    · simp only [read, hload, hbits.2]
      rfl
    · intro b hb; cases hb

/-- Code in a reference and cells are read as the reference. -/
private theorem takes_ref (field : Field) (f : Fragment) (source : Option Cell)
    (hfield : field = code ∨ field = cell) :
    field.Takes (.code f source) [] [f.builder.cell] where
  least := by rcases hfield with rfl | rfl <;> exact Nat.le_refl 0
  decode := by
    intro s more moreRefs h
    obtain ⟨rest, hload, hrest⟩ := h.loadRef
    refine ⟨rest, ?_, hrest⟩
    apply decode_of_read
    · rcases hfield with rfl | rfl <;> (simp only [read, hload]; rfl)
    · rcases hfield with rfl | rfl <;> (intro b hb; cases hb)

/-- Inline code is read by the count of its bytes. -/
private theorem takes_inlineCode (f : Fragment) (source : Option Cell)
    (hrefs : f.builder.refs = []) (hbytes : f.builder.bits.length % 8 = 0)
    (hlength : f.builder.bits.length ≤ 8 * 15) :
    inlineCode.Takes (.code f source)
      (Bits.ofNat 4 (f.builder.bits.length / 8) ++ f.builder.bits) [] where
  least := by simp [leastWidth]
  decode := by
    intro s more moreRefs h
    rw [List.append_assoc] at h
    obtain ⟨s₁, hcount, hs₁⟩ := h.loadUInt 4 (by simp)
    -- A count up to 15 is written in four bits.
    have hnat : (Bits.ofNat 4 (f.builder.bits.length / 8)).toNat = f.builder.bits.length / 8 := by
      rw [Bits.toNat_ofNat]
      exact Nat.mod_eq_of_lt (by show _ < 16; omega)
    rw [hnat] at hcount
    obtain ⟨s₂, hbody, hs₂⟩ := hs₁.loadBits (8 * (f.builder.bits.length / 8 : Nat)) (by omega)
    refine ⟨s₂, ?_, hs₂⟩
    apply decode_of_read
    · -- The code has no references, so its cell is just its bits.
      have hcell : f.builder.cell = .data f.builder.bits := by
        simp [Builder.cell, Cell.mk, hrefs]
      simp only [read, hcount, bind, Except.bind, hbody, held, hcell]
      rfl
    · intro b hb; cases hb

/-- Long inline code is read by the counts of its references and bytes. -/
private theorem takes_longInlineCode (f : Fragment) (source : Option Cell)
    (hrefs : f.builder.refs.length ≤ 3) (hbytes : f.builder.bits.length % 8 = 0)
    (hlength : f.builder.bits.length ≤ 8 * 127) :
    longInlineCode.Takes (.code f source)
      (Bits.ofNat 2 f.builder.refs.length ++ Bits.ofNat 7 (f.builder.bits.length / 8) ++
        f.builder.bits) f.builder.refs where
  least := by simp [leastWidth]; omega
  decode := by
    intro s more moreRefs h
    rw [List.append_assoc, List.append_assoc] at h
    -- First the two counts, then the bits of the body, and then its references.
    obtain ⟨s₁, hcount, hs₁⟩ := h.loadUInt 2 (by simp)
    have hnat₁ : (Bits.ofNat 2 f.builder.refs.length).toNat = f.builder.refs.length := by
      rw [Bits.toNat_ofNat]
      exact Nat.mod_eq_of_lt (by show _ < 4; omega)
    rw [hnat₁] at hcount
    obtain ⟨s₂, hbytes', hs₂⟩ := hs₁.loadUInt 7 (by simp)
    have hnat₂ : (Bits.ofNat 7 (f.builder.bits.length / 8)).toNat = f.builder.bits.length / 8 := by
      rw [Bits.toNat_ofNat]
      exact Nat.mod_eq_of_lt (by show _ < 128; omega)
    rw [hnat₂] at hbytes'
    obtain ⟨s₃, hbody, hs₃⟩ := hs₂.loadBits (8 * (f.builder.bits.length / 8 : Nat)) (by omega)
    obtain ⟨s₄, hloads, hs₄⟩ := loadRefs_shows f.builder.refs moreRefs s₃ more hs₃
    refine ⟨s₄, ?_, hs₄⟩
    apply decode_of_read
    · simp only [read, hcount, bind, Except.bind, hbytes', hbody, hloads, held]
      rfl
    · intro b hb; cases hb

/-- A short slice is read with its tag, which decoding takes off. -/
private theorem takes_shortSlice (bits : Bits) (hlength : (bits.length + 4) / 8 ≤ 15) :
    shortSlice.Takes (.bits bits) (Bits.ofNat 4 ((bits.length + 4) / 8) ++ bits ++
      true :: List.replicate (8 * ((bits.length + 4) / 8) + 4 - bits.length - 1) false) [] where
  least := by
    simp only [leastWidth, List.length_append, Bits.length_ofNat, List.length_cons,
      List.length_replicate]
    omega
  decode := by
    intro s more moreRefs h
    rw [List.append_assoc, List.append_assoc] at h
    obtain ⟨s₁, hcount, hs₁⟩ := h.loadUInt 4 (by simp)
    have hnat : (Bits.ofNat 4 ((bits.length + 4) / 8)).toNat = (bits.length + 4) / 8 := by
      rw [Bits.toNat_ofNat]
      exact Nat.mod_eq_of_lt (by show _ < 16; omega)
    rw [hnat] at hcount
    rw [← List.append_assoc] at hs₁
    -- With the tag and the zeros behind it the slice has as many bits as the count says.
    obtain ⟨s₂, hbody, hs₂⟩ := hs₁.loadBits (8 * ((bits.length + 4) / 8 : Nat) + 4) (by
      simp only [List.length_append, List.length_cons, List.length_replicate]
      omega)
    refine ⟨s₂, ?_, hs₂⟩
    simp only [decode, read, hcount, bind, Except.bind, hbody, held]
    -- The completion tag is the last set bit, and it is dropped with the zeros behind it.
    simp only [pure, Except.pure, complete, Bits.untag?_append_tag]

/-- Encoding an operand adds what decoding takes. -/
theorem decode_encode (field : Field) (operand : Operand Fragment) (e e' : Encoding)
    (hproper : field.Proper) (h : field.encode operand e = .ok e') :
    ∃ bits refs, e'.bits = e.bits ++ bits ∧ e'.refs = e.refs ++ refs ∧
      field.Takes operand bits refs := by
  -- What each field adds is what it takes when it is decoded.
  cases field.encodes_of_encode operand e e' h with
  | stack width index bits hbits =>
    obtain ⟨rfl, hnat⟩ := unsignedBits_eq_ok _ _ _ hbits
    refine ⟨bits, [], rfl, by simp [Encoding.addBits], ?_⟩
    exact takes_number _ _ bits _ (.stack ·) rfl rfl (fun _ => rfl) (by simp [held, hnat]) nofun
  | control width index bits hbits =>
    obtain ⟨rfl, hnat⟩ := unsignedBits_eq_ok _ _ _ hbits
    refine ⟨bits, [], rfl, by simp [Encoding.addBits], ?_⟩
    exact takes_number _ _ bits _ (.control ·) rfl rfl (fun _ => rfl) (by simp [held, hnat]) nofun
  | unsigned width bias value bits hbits =>
    obtain ⟨rfl, hnat⟩ := unsignedBits_eq_ok _ _ _ hbits
    refine ⟨bits, [], rfl, by simp [Encoding.addBits], ?_⟩
    exact takes_number _ _ bits _ (fun n => .integer (n + bias)) rfl rfl (fun _ => rfl)
      (by simp [held, hnat]) nofun
  | signed width value bits hbits =>
    refine ⟨bits, [], rfl, by simp [Encoding.addBits], ?_⟩
    exact takes_signed width value bits (signedBits_eq_ok value width bits hproper hbits)
  | tiny value hrange =>
    refine ⟨Bits.ofInt 4 value, [], rfl, by simp [Encoding.addBits], ?_⟩
    exact takes_number _ _ _ 4 (fun n => .integer (((n + 5) % 16 : Nat) - 5)) (by simp)
      (by simp [leastWidth]) (fun _ => rfl) (by simp only [held, tiny_ofInt value hrange]) nofun
  | code f source =>
    exact ⟨[], [f.builder.cell], by simp [Encoding.addRef], rfl, takes_ref _ f source (.inl rfl)⟩
  | cell f source =>
    exact ⟨[], [f.builder.cell], by simp [Encoding.addRef], rfl, takes_ref _ f source (.inr rfl)⟩
  | inlineCode f source hrefs hbytes hshort =>
    refine ⟨_, [], ?_, ?_, takes_inlineCode f source hrefs hbytes hshort⟩
    · simp [Encoding.addInline, Encoding.addBits]
    · simp [Encoding.addInline, Encoding.addBits, hrefs]
  | longInlineCode f source hrefs hbytes hshort =>
    refine ⟨_, _, ?_, ?_, takes_longInlineCode f source hrefs hbytes hshort⟩
    · simp [Encoding.addInline, Encoding.addBits]
    · simp [Encoding.addInline, Encoding.addBits]
  | shortSlice bits hshort =>
    exact ⟨_, [], rfl, by simp [Encoding.addBits], takes_shortSlice bits hshort⟩

end Field

/-! ## All operands of an instruction -/

namespace Opcode

namespace Format

/-- The bits that the operands of an instruction take at least. -/
def leastWidth (h : Format) : Nat := (h.fields.map Field.leastWidth).sum

/-- The operands that decoding finds where these were encoded. -/
def held (h : Format) (operands : List (Operand Fragment)) : List (Operand Cell) :=
  (h.fields.zip operands).map fun p => p.1.held p.2

/-- Operands are taken one after the other, in the order in which they were added. -/
private theorem decodeFields_encode (pairs : List (Field × Operand Fragment)) (e e' : Encoding)
    (hproper : ∀ p ∈ pairs, p.1.Proper)
    (h : pairs.foldlM (fun e (field, operand) => field.encode operand e) e = .ok e') :
    ∃ bits refs, e'.bits = e.bits ++ bits ∧ e'.refs = e.refs ++ refs ∧
      (pairs.map (·.1.leastWidth)).sum ≤ bits.length ∧
      ∀ (s : Slice) (more : Bits) (moreRefs : List Cell),
        s.Shows (bits ++ more) (refs ++ moreRefs) →
          ∃ rest, decodeFields (pairs.map (·.1)) s =
            ⟨pairs.map fun p => p.1.held p.2, .ok rest⟩ ∧ rest.Shows more moreRefs := by
  -- Induction on the pairs of fields and operands.
  induction pairs generalizing e with
  | nil =>
    cases h
    exact ⟨[], [], by simp, by simp, Nat.le_refl 0, fun s more moreRefs hs => ⟨s, rfl, hs⟩⟩
  | cons p pairs ih =>
    obtain ⟨field, operand⟩ := p
    obtain ⟨e₁, he₁, hrest⟩ := (foldlM_cons_eq_ok _ _ _ _ _).mp h
    obtain ⟨bits₁, refs₁, hbits₁, hrefs₁, htakes⟩ :=
      Field.decode_encode field operand e e₁ (hproper (field, operand) (by simp)) he₁
    obtain ⟨bits₂, refs₂, hbits₂, hrefs₂, hleast, hdecode⟩ :=
      ih e₁ (fun q hq => hproper q (List.mem_cons_of_mem _ hq)) hrest
    refine ⟨bits₁ ++ bits₂, refs₁ ++ refs₂, ?_, ?_, ?_, ?_⟩
    · rw [hbits₂, hbits₁, List.append_assoc]
    · rw [hrefs₂, hrefs₁, List.append_assoc]
    · -- The first operand takes at least its width and so do the others.
      have := htakes.least
      simp only [List.map_cons, List.sum_cons, List.length_append]
      omega
    · intro s more moreRefs hs
      rw [List.append_assoc, List.append_assoc] at hs
      -- The first operand is taken by its field, and the others from where that stopped.
      obtain ⟨s₁, hfirst, hs₁⟩ := htakes.decode s _ _ hs
      obtain ⟨s₂, hothers, hs₂⟩ := hdecode s₁ more moreRefs hs₁
      refine ⟨s₂, ?_, hs₂⟩
      simp only [List.map_cons, decodeFields, hfirst, hothers]

/-- An encoded instruction starts with its opcode and is decoded to its operands. -/
theorem decode_encode (h : Format) (operands : List (Operand Fragment)) (e : Encoding)
    (hproper : ∀ field ∈ h.fields, field.Proper) (henc : h.encode operands = .ok e) :
    h.opcode <+: e.bits ∧ h.opcode.length + h.leastWidth ≤ e.bits.length ∧
      ∀ (s : Slice) (more : Bits) (moreRefs : List Cell),
        s.Shows (e.bits ++ more) (e.refs ++ moreRefs) →
          ∃ rest, h.decode s = ⟨h.held operands, .ok rest⟩ ∧ rest.Shows more moreRefs := by
  unfold encode at henc
  split at henc
  · cases henc
  · rename_i hcount
    -- There are as many operands as fields, so no field is dropped.
    have hfst : (h.fields.zip operands).map (·.1) = h.fields :=
      List.map_fst_zip (by omega)
    obtain ⟨bits, refs, hbits, hrefs, hleast, hdecode⟩ :=
      decodeFields_encode (h.fields.zip operands) _ e
        (fun p hp => hproper p.1 (by rw [← hfst]; exact List.mem_map_of_mem hp)) henc
    have hwidth : ((h.fields.zip operands).map (·.1.leastWidth)).sum = h.leastWidth := by
      rw [leastWidth, ← hfst, List.map_map]
      rw [hfst]
      rfl
    rw [List.nil_append] at hrefs
    dsimp only at hbits
    refine ⟨⟨bits, hbits.symm⟩, ?_, ?_⟩
    · -- Behind the opcode there are the bits of the operands.
      rw [hbits, List.length_append, ← hwidth]
      omega
    · intro s more moreRefs hs
      rw [hbits, hrefs, List.append_assoc] at hs
      -- Decoding skips the opcode and then takes the operands.
      obtain ⟨s₁, hskip, hs₁⟩ := hs.skipBits h.opcode.length rfl
      obtain ⟨s₂, hfields, hs₂⟩ := hdecode s₁ more moreRefs hs₁
      refine ⟨s₂, ?_, hs₂⟩
      unfold decode
      rw [hskip]
      rw [hfst] at hfields
      exact hfields

end Format

/-! ## The format of an encoded instruction -/

/-- The fields of all instructions are proper. -/
theorem instructions_fields_proper : ∀ h ∈ instructions, ∀ field ∈ h.fields, field.Proper := by
  decide +kernel

/-- An opcode that goes on behind another one ends within the operands of the other, so what
    follows an instruction never turns it into another one. -/
theorem instructions_opcode_within :
    ∀ h ∈ instructions, ∀ g ∈ instructions, h.opcode.isPrefixOf g.opcode →
      g.opcode.length ≤ h.opcode.length + h.leastWidth := by
  decide +kernel

/-- An encoding that is not shadowed is found again, whatever follows it. -/
theorem find?_encode (h : Format) (operands : List (Operand Fragment)) (e : Encoding)
    (more : Bits) (hmem : h ∈ instructions) (henc : h.encode operands = .ok e)
    (hshadow : standard.shadowing? h e.bits = none) : standard.find? (e.bits ++ more) = some h := by
  obtain ⟨hpre, hlength, _⟩ :=
    Format.decode_encode h operands e (instructions_fields_proper h hmem) henc
  -- The opcode starts the bits, whatever follows them.
  have hpre' : h.opcode <+: e.bits ++ more := hpre.trans (List.prefix_append _ _)
  refine (Table.findLonger?_eq_some _ _ _ _ instructions_opcodes_nodup).mpr
    ⟨hmem, hpre', by omega, ?_⟩
  intro g hg hgpre
  by_cases hle : g.opcode.length ≤ h.opcode.length
  · exact hle
  · -- A longer opcode would start with this one and so end within the encoding.
    have hext : h.opcode <+: g.opcode := List.prefix_of_prefix_length_le hpre' hgpre (by omega)
    have hwithin := instructions_opcode_within h hmem g hg (List.isPrefixOf_iff_prefix.mpr hext)
    have hgpre' : g.opcode <+: e.bits :=
      List.prefix_of_prefix_length_le hgpre (List.prefix_append _ _) (by omega)
    exact absurd (by omega)
      ((Table.findLonger?_eq_none instructions e.bits h.opcode.length).mp hshadow g hg hgpre')

end Opcode

end CellCode
