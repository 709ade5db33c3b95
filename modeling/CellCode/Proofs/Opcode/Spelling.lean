import CellCode.Code.Decode
import CellCode.Proofs.Opcode.RoundTrip

/-!
# Which bits an instruction takes

A field reads its operand from bits and references at the front of a slice. `Field.Spells` says
for each kind of field which ones, and what operand they spell; decoding takes exactly these and
leaves what follows them.

Together with the round trip of operands this tells encoded instructions apart by their own bits.
The check against shadowing looks at nothing else, and still an encoding that passes it is read as
the instruction it was made from, whatever follows it, and reading stops where the encoding does.

## Key results

- `Field.decode_spells`, `Opcode.Format.decode_spells`: what one field and one instruction take
- `Opcode.step_encoding`: an encoded instruction is read as itself, whatever follows it
-/

namespace CellCode

/-! ## Fields -/

namespace Field

/-- These bits and references spell the operand of a field. -/
inductive Spells : Field → Bits → List Cell → Operand Cell → Prop
  | stack (bits : Bits) : Spells (.stack bits.length) bits [] (.stack bits.toNat)
  | control (bits : Bits) : Spells (.control bits.length) bits [] (.control bits.toNat)
  | unsigned (bits : Bits) (bias : Nat) :
      Spells (.unsigned bits.length bias) bits [] (.integer (bits.toNat + bias))
  | signed (bits : Bits) :
      Spells (.signed bits.length) bits [] (.integer (Bits.signed bits.length bits.toNat))
  | tiny (bits : Bits) (length : bits.length = 4) :
      Spells .tiny bits [] (.integer (((bits.toNat + 5) % 16 : Nat) - 5))
  | code (c : Cell) : Spells .code [] [c] (.code c (some c))
  | cell (c : Cell) : Spells .cell [] [c] (.cell c)
  | inlineCode (count body : Bits) (length : count.length = 4)
      (bytes : body.length = 8 * count.toNat) :
      Spells .inlineCode (count ++ body) [] (.code (.data body) none)
  | longInlineCode (refCount count body : Bits) (refs : List Cell)
      (lengths : refCount.length = 2 ∧ count.length = 7) (bytes : body.length = 8 * count.toNat)
      (attached : refs.length = refCount.toNat) :
      Spells .longInlineCode (refCount ++ (count ++ body)) refs (.code (.mk body refs) none)
  | shortSlice (count body constant : Bits) (length : count.length = 4)
      (size : body.length = 8 * count.toNat + 4) (tagged : body.untag? = some constant) :
      Spells .shortSlice (count ++ body) [] (.bits constant)

/-- References are taken one by one from the front. -/
private theorem leaves_of_loadRefs (n : Nat) (s rest : Slice) (refs : List Cell)
    (h : read.loadRefs n s = .ok (refs, rest)) : refs.length = n ∧ s.Leaves [] refs rest := by
  -- Induction on the number of references.
  induction n generalizing s refs with
  | zero =>
    cases h
    exact ⟨rfl, Slice.leaves_refl _⟩
  | succ n ih =>
    obtain ⟨⟨ref, s₁⟩, hload, h⟩ := (bind_eq_ok _ _ _).mp h
    obtain ⟨⟨refs', s₂⟩, hloads, h⟩ := (bind_eq_ok _ _ _).mp h
    cases h
    obtain ⟨hcount, hrest⟩ := ih s₁ refs' hloads
    exact ⟨by rw [List.length_cons, hcount], (Slice.leaves_of_loadRef hload).trans hrest⟩

/-- Only a constant bit string has a completion tag, so other operands are as they were read. -/
private theorem read_of_decode (field : Field) (s rest : Slice) (operand : Operand Cell)
    (hfield : field ≠ shortSlice) (h : field.decode s = .ok (operand, rest)) :
    field.read s = .ok (operand, rest) := by
  unfold decode at h
  split at h
  · cases h
  · -- The completion looks for the tag of a short slice only.
    rename_i o s₁ hread
    unfold complete at h
    split at h
    · exact absurd rfl hfield
    · cases h
      exact hread

/-- A constant bit string is spelled by its length, its bits and the completion tag. -/
private theorem decode_shortSlice_spells (s rest : Slice) (operand : Operand Cell) (hs : s.Valid)
    (h : shortSlice.decode s = .ok (operand, rest)) :
    ∃ bits refs, shortSlice.Spells bits refs operand ∧ s.Leaves bits refs rest := by
  unfold decode at h
  split at h
  · cases h
  · rename_i o s₁ hread
    -- The length is read, then the bits with their tag, and the tag is looked for in the end.
    obtain ⟨⟨n, s₂⟩, hload, hread⟩ := (bind_eq_ok _ _ _).mp hread
    obtain ⟨⟨body, s₃⟩, hbody, hread⟩ := (bind_eq_ok _ _ _).mp hread
    cases hread
    obtain ⟨count, hcount, rfl, hleaves₁⟩ := Slice.leaves_of_loadUInt hs _ hload
    obtain ⟨hbits, hleaves₂⟩ := Slice.leaves_of_loadBits (hleaves₁.valid hs) _ hbody
    simp only [complete] at h
    split at h
    · cases h
    · rename_i constant htagged
      cases h
      exact ⟨_, _, .shortSlice count body constant (by omega) (by omega) htagged,
        hleaves₁.trans hleaves₂⟩

/-- Decoding takes the bits and references that spell the operand. -/
theorem decode_spells (field : Field) (s rest : Slice) (operand : Operand Cell) (hs : s.Valid)
    (h : field.decode s = .ok (operand, rest)) :
    ∃ bits refs, field.Spells bits refs operand ∧ s.Leaves bits refs rest := by
  by_cases hfield : field = shortSlice
  · subst hfield
    exact decode_shortSlice_spells s rest operand hs h
  have hread := read_of_decode field s rest operand hfield h
  cases field with
  -- A number is spelled by its bits.
  | stack width | control width | unsigned width bias =>
    obtain ⟨⟨n, s₁⟩, hload, hread⟩ := (bind_eq_ok _ _ _).mp hread
    obtain ⟨bits, hwidth, rfl, hleaves⟩ := Slice.leaves_of_loadUInt hs _ hload
    cases hread
    obtain rfl := Int.ofNat_inj.mp hwidth
    exact ⟨bits, [], by constructor, hleaves⟩
  | signed width =>
    obtain ⟨⟨v, s₁⟩, hload, hread⟩ := (bind_eq_ok _ _ _).mp hread
    obtain ⟨bits, hwidth, rfl, hleaves⟩ := Slice.leaves_of_loadInt hs _ hload
    cases hread
    obtain rfl := Int.ofNat_inj.mp hwidth
    exact ⟨bits, [], .signed bits, hleaves⟩
  | tiny =>
    obtain ⟨⟨n, s₁⟩, hload, hread⟩ := (bind_eq_ok _ _ _).mp hread
    obtain ⟨bits, hlength, rfl, hleaves⟩ := Slice.leaves_of_loadUInt hs _ hload
    cases hread
    exact ⟨bits, [], .tiny bits (by omega), hleaves⟩
  -- A reference is spelled by itself.
  | code | cell =>
    obtain ⟨⟨c, s₁⟩, hload, hread⟩ := (bind_eq_ok _ _ _).mp hread
    cases hread
    exact ⟨[], [c], by constructor, Slice.leaves_of_loadRef hload⟩
  | inlineCode =>
    obtain ⟨⟨n, s₁⟩, hload, hread⟩ := (bind_eq_ok _ _ _).mp hread
    obtain ⟨⟨body, s₂⟩, hbody, hread⟩ := (bind_eq_ok _ _ _).mp hread
    cases hread
    -- The count of bytes, then the bytes.
    obtain ⟨count, hcount, rfl, hleaves₁⟩ := Slice.leaves_of_loadUInt hs _ hload
    obtain ⟨hbytes, hleaves₂⟩ := Slice.leaves_of_loadBits (hleaves₁.valid hs) _ hbody
    exact ⟨_, _, .inlineCode count body (by omega) (by omega), hleaves₁.trans hleaves₂⟩
  | longInlineCode =>
    obtain ⟨⟨m, s₁⟩, hload, hread⟩ := (bind_eq_ok _ _ _).mp hread
    obtain ⟨⟨n, s₂⟩, hload', hread⟩ := (bind_eq_ok _ _ _).mp hread
    obtain ⟨⟨body, s₃⟩, hbody, hread⟩ := (bind_eq_ok _ _ _).mp hread
    obtain ⟨⟨refs, s₄⟩, hrefs, hread⟩ := (bind_eq_ok _ _ _).mp hread
    cases hread
    -- The counts of references and bytes, then the bytes, then the references.
    obtain ⟨refCount, hrefCount, rfl, hleaves₁⟩ := Slice.leaves_of_loadUInt hs _ hload
    have hs₁ := hleaves₁.valid hs
    obtain ⟨count, hcount, rfl, hleaves₂⟩ := Slice.leaves_of_loadUInt hs₁ _ hload'
    obtain ⟨hbytes, hleaves₃⟩ := Slice.leaves_of_loadBits (hleaves₂.valid hs₁) _ hbody
    obtain ⟨hattached, hleaves₄⟩ := leaves_of_loadRefs _ _ _ _ hrefs
    refine ⟨_, _, .longInlineCode refCount count body refs ⟨by omega, by omega⟩ (by omega)
      hattached, ?_⟩
    have hleaves := hleaves₁.trans (hleaves₂.trans (hleaves₃.trans hleaves₄))
    rwa [List.append_nil] at hleaves
  | shortSlice => exact absurd rfl hfield

end Field

/-! ## Instructions -/

namespace Opcode

namespace Format

/-- These bits and references spell the operands of some fields, one after the other. -/
inductive Spells : List Field → Bits → List Cell → List (Operand Cell) → Prop
  | nil : Spells [] [] [] []
  | cons {field : Field} {fields : List Field} {bits bits' : Bits} {refs refs' : List Cell}
      {operand : Operand Cell} {operands : List (Operand Cell)}
      (first : field.Spells bits refs operand) (others : Spells fields bits' refs' operands) :
      Spells (field :: fields) (bits ++ bits') (refs ++ refs') (operand :: operands)

/-- Fields take what spells their operands, one after the other. -/
private theorem decodeFields_spells (fields : List Field) (s rest : Slice)
    (operands : List (Operand Cell)) (hs : s.Valid)
    (h : decodeFields fields s = ⟨operands, .ok rest⟩) :
    ∃ bits refs, Spells fields bits refs operands ∧ s.Leaves bits refs rest := by
  -- Induction on the fields.
  induction fields generalizing s operands with
  | nil =>
    cases h
    exact ⟨[], [], .nil, Slice.leaves_refl _⟩
  | cons field fields ih =>
    unfold decodeFields at h
    split at h
    · cases h
    · rename_i operand s₁ hdecode
      obtain ⟨hoperands, houtcome⟩ := Decoded.mk.inj h
      subst hoperands
      -- The first field takes its part, and the others take theirs from what it leaves.
      obtain ⟨bits₁, refs₁, hfirst, hleaves₁⟩ := field.decode_spells s s₁ operand hs hdecode
      obtain ⟨bits₂, refs₂, hothers, hleaves₂⟩ :=
        ih s₁ _ (hleaves₁.valid hs) (by rw [← houtcome])
      exact ⟨_, _, .cons hfirst hothers, hleaves₁.trans hleaves₂⟩

/-- Decoding an instruction takes its opcode and what spells its operands. -/
theorem decode_spells (h : Format) (s rest : Slice) (operands : List (Operand Cell))
    (hs : s.Valid) (hopcode : h.opcode <+: s.data) (hd : h.decode s = ⟨operands, .ok rest⟩) :
    ∃ bits refs, Spells h.fields bits refs operands ∧ s.Leaves (h.opcode ++ bits) refs rest := by
  unfold decode at hd
  split at hd
  · cases hd
  · rename_i s₁ hskip
    obtain ⟨front, hlength, hleaves₁⟩ := Slice.leaves_of_skipBits hs _ hskip
    -- The bits skipped are the opcode, since both start the slice and are equally long.
    have hfront : front <+: s.data := ⟨s₁.data, hleaves₁.data_eq.symm⟩
    have hopcode' : h.opcode = front :=
      (List.prefix_of_prefix_length_le hopcode hfront (by omega)).eq_of_length (by omega)
    obtain ⟨bits, refs, hspells, hleaves₂⟩ :=
      decodeFields_spells h.fields s₁ rest operands (hleaves₁.valid hs) hd
    exact ⟨bits, refs, hspells, by rw [hopcode']; exact hleaves₁.trans hleaves₂⟩

end Format

end Opcode

/-! ## Encoded instructions -/

/-- How an operand comes back from decoding. Code and cells in references are the cells that were
    attached for them, and code in the instruction has the bits and references it was given with. -/
inductive Operand.ComesBack : Operand Fragment → Operand Cell → Prop
  | integer (value : Int) : ComesBack (.integer value) (.integer value)
  | stack (index : Int) : ComesBack (.stack index) (.stack index)
  | control (index : Int) : ComesBack (.control index) (.control index)
  | bits (bits : Bits) : ComesBack (.bits bits) (.bits bits)
  | code (f : Fragment) (source : Option Cell) :
      ComesBack (.code f source) (.code f.builder.cell (some f.builder.cell))
  | cell (f : Fragment) (source : Option Cell) :
      ComesBack (.code f source) (.cell f.builder.cell)
  | inline (f : Fragment) (source : Option Cell) (body : Cell) (bits : body.bits = f.builder.bits)
      (refs : body.refs = f.builder.refs) : ComesBack (.code f source) (.code body none)

/-- What decoding finds where an operand was encoded is the operand itself. -/
theorem Field.Encodes.comesBack {e e' : Encoding} {field : Field} {o : Operand Fragment}
    (h : field.Encodes e o e') : o.ComesBack (field.held o) := by
  cases h with
  -- Inline code comes back in a cell of its own, with the same bits and references.
  | inlineCode f source | longInlineCode f source =>
    exact .inline f source _ (Cell.bits_mk _ _) (Cell.refs_mk _ _)
  | _ => constructor

/-- An instruction stands where a format is found and its operands can be read. -/
theorem Decode.step_of_find? (s rest : Slice) (h : Opcode.Format) (operands : List (Operand Cell))
    (hfind : Opcode.standard.find? s.data = some h)
    (hdecode : h.decode s = ⟨operands, .ok rest⟩) :
    Decode.step s = .instruction ⟨h.name, operands⟩ rest := by
  have hbits : s.remainingBits ≠ 0 := by
    intro hempty
    -- No opcode starts the empty string of bits.
    have hdata : s.data = [] := by
      unfold Slice.remainingBits at hempty
      rw [Slice.data, show s.bitEnd - s.bitPos = 0 by omega, List.take_zero]
    obtain ⟨hmem, hopcode, -⟩ := (Opcode.Table.findLonger?_eq_some Opcode.instructions _ _ h
      Opcode.instructions_opcodes_nodup).mp hfind
    rw [hdata] at hopcode
    exact Opcode.instructions_opcode_ne_nil h hmem (List.prefix_nil.mp hopcode)
  unfold Decode.step
  rw [if_neg hbits, hfind]
  simp only [hdecode]

namespace Opcode

/-- Operands that were encoded in their fields come back, one by one. -/
private theorem comesBack_of_foldlM (fields : List Field) (operands : List (Operand Fragment))
    (e e' : Encoding) (hlength : operands.length = fields.length)
    (h : (fields.zip operands).foldlM (fun e (field, o) => field.encode o e) e = .ok e') :
    List.Forall₂ Operand.ComesBack operands
      ((fields.zip operands).map fun p => p.1.held p.2) := by
  -- Induction on the fields and the operands with them.
  induction fields generalizing operands e with
  | nil =>
    obtain rfl := List.length_eq_zero_iff.mp hlength
    exact .nil
  | cons field fields ih =>
    cases operands with
    | nil => cases hlength
    | cons o operands =>
      obtain ⟨e₁, he₁, hrest⟩ := (foldlM_cons_eq_ok _ _ _ _ _).mp h
      exact .cons (field.encodes_of_encode o e e₁ he₁).comesBack
        (ih operands e₁ (Nat.succ.inj hlength) hrest)

/-- Operands that were encoded come back. -/
theorem Format.held_comesBack (h : Format) (operands : List (Operand Fragment)) (e : Encoding)
    (hencode : h.encode operands = .ok e) :
    List.Forall₂ Operand.ComesBack operands (h.held operands) := by
  unfold Format.encode at hencode
  split at hencode
  · cases hencode
  · -- The number of operands agrees with that of the fields.
    rename_i hlength
    exact comesBack_of_foldlM h.fields operands _ e (not_not.mp hlength) hencode

/-- Decoding takes an encoding and nothing behind it, and the encoding spells what it returns. -/
theorem Format.decode_encoding (h : Format) (operands : List (Operand Fragment)) (e : Encoding)
    (s : Slice) (more : Bits) (moreRefs : List Cell) (hmem : h ∈ instructions)
    (hencode : h.encode operands = .ok e) (hs : s.Shows (e.bits ++ more) (e.refs ++ moreRefs)) :
    ∃ bits rest, h.decode s = ⟨h.held operands, .ok rest⟩ ∧ s.Leaves e.bits e.refs rest ∧
      e.bits = h.opcode ++ bits ∧ Spells h.fields bits e.refs (h.held operands) := by
  obtain ⟨hopcode, -, hdecode⟩ :=
    h.decode_encode operands e (instructions_fields_proper h hmem) hencode
  obtain ⟨rest, hdecode, hrest⟩ := hdecode s more moreRefs hs
  have hfront : h.opcode <+: s.data := by
    rw [hs.data_eq]
    exact hopcode.trans (List.prefix_append _ _)
  obtain ⟨bits, refs, hspells, hleaves⟩ := h.decode_spells s rest _ hs.valid hfront hdecode
  -- The same is left behind the encoding and behind what was taken, so these agree.
  obtain ⟨hbits, hrefs⟩ := hleaves.eq_of_shows hs hrest
  rw [hbits] at hleaves
  rw [hrefs] at hleaves hspells
  exact ⟨bits, rest, hdecode, hleaves, hbits.symm, hspells⟩

/-- An encoded instruction that is not shadowed is read as itself, whatever follows it: its format
    is found, decoding takes its bits and references and no others, and the operands come back as
    they were given. -/
theorem step_encoding (h : Format) (operands : List (Operand Fragment)) (e : Encoding)
    (s : Slice) (more : Bits) (moreRefs : List Cell) (hmem : h ∈ instructions)
    (hencode : h.encode operands = .ok e) (hshadow : standard.shadowing? h e.bits = none)
    (hs : s.Shows (e.bits ++ more) (e.refs ++ moreRefs)) :
    standard.find? s.data = some h ∧
      ∃ bits returned rest, h.decode s = ⟨returned, .ok rest⟩ ∧
        Decode.step s = .instruction ⟨h.name, returned⟩ rest ∧ s.Leaves e.bits e.refs rest ∧
        e.bits = h.opcode ++ bits ∧ Format.Spells h.fields bits e.refs returned ∧
        List.Forall₂ Operand.ComesBack operands returned := by
  have hfind : standard.find? s.data = some h := by
    rw [hs.data_eq]
    exact find?_encode h operands e more hmem hencode hshadow
  obtain ⟨bits, rest, hdecode, hleaves, hbits, hspells⟩ :=
    h.decode_encoding operands e s more moreRefs hmem hencode hs
  have hstep := Decode.step_of_find? s rest h _ hfind hdecode
  have hback := h.held_comesBack operands e hencode
  exact ⟨hfind, bits, _, rest, hdecode, hstep, hleaves, hbits, hspells, hback⟩

/-- A continuation with a reference of its own: a jump to code that adds. -/
def jumpBody : Fragment := ⟨⟨hexBits "DB3D", [.data (hexBits "A0")]⟩, .empty⟩

/-- A push of that continuation, in front of more bits and another reference. -/
def jumpPushed : Builder := ⟨hexBits "8E82DB3D20", [.data (hexBits "A0"), .data []]⟩

/-- The continuation comes back, and what stands behind it is left. -/
theorem step_encoding_jumpBody : ∃ h ∈ instructions, ∃ e,
    h.encode [.code jumpBody none] = .ok e ∧ standard.shadowing? h e.bits = none ∧
      ∃ returned rest,
        Decode.step jumpPushed.cell.toSlice = .instruction ⟨"PUSHCONT", returned⟩ rest ∧
        jumpPushed.cell.toSlice.Leaves e.bits e.refs rest ∧
        List.Forall₂ Operand.ComesBack [.code jumpBody none] returned := by
  have hmem : opCut "PUSHCONT" "8E" 7 [.longInlineCode] ∈ instructions := by decide +kernel
  -- No longer opcode starts the encoding, which can be decided for all of them.
  have hshadow : standard.shadowing? (opCut "PUSHCONT" "8E" 7 [.longInlineCode])
      (hexBits "8E82DB3D") = none :=
    (Table.findLonger?_eq_none instructions _ _).mpr (by decide +kernel)
  obtain ⟨-, -, returned, rest, -, hstep, hleaves, -, -, hback⟩ :=
    step_encoding _ [.code jumpBody none] _ jumpPushed.cell.toSlice (hexBits "20") [.data []]
      hmem rfl hshadow (Slice.shows_cell jumpPushed)
  exact ⟨_, hmem, _, rfl, hshadow, returned, rest, hstep, hleaves, hback⟩

end Opcode

end CellCode
