import CellCode.Listing.Assemble
import CellCode.Proofs.Lists
import CellCode.Proofs.Result

/-!
# What encodings hold

An operand is encoded in a field of its own kind, and the references of an encoding are those of
the code among its operands. Cells have few places in the table.

* `Field.encodes_of_encode`   what encoding an operand can do
* `Format.encode_holds`       kinds and references of what is encoded
* `firstEncoding_eq_ok`       the encoding that is taken
* `cell_iff_of_name_eq`       encodings of one mnemonic have cells in one place
-/

namespace CellCode

/-- The cell is what the operand's code is built into, or a reference of it. -/
def Operand.Refers (o : Operand Fragment) (r : Cell) : Prop :=
  ∃ f source, o = .code f source ∧ (r = f.builder.cell ∨ r ∈ f.builder.refs)

namespace Field

/-- How each kind of operand is added to an encoding. -/
inductive Encodes (e : Encoding) : Field → Operand Fragment → Encoding → Prop
  | stack (width : Nat) (index : Int) (bits : Bits) (h : unsignedBits index width = .ok bits) :
      Encodes e (.stack width) (.stack index) (e.addBits bits)
  | control (width : Nat) (index : Int) (bits : Bits) (h : unsignedBits index width = .ok bits) :
      Encodes e (.control width) (.control index) (e.addBits bits)
  | unsigned (width bias : Nat) (value : Int) (bits : Bits)
      (h : unsignedBits (value - bias) width = .ok bits) :
      Encodes e (.unsigned width bias) (.integer value) (e.addBits bits)
  | signed (width : Nat) (value : Int) (bits : Bits) (h : signedBits value width = .ok bits) :
      Encodes e (.signed width) (.integer value) (e.addBits bits)
  | tiny (value : Int) (h : -5 ≤ value ∧ value ≤ 10) :
      Encodes e .tiny (.integer value) (e.addBits (.ofInt 4 value))
  | code (f : Fragment) (source : Option Cell) : Encodes e .code (.code f source) (e.addRef f)
  | cell (f : Fragment) (source : Option Cell) : Encodes e .cell (.code f source) (e.addRef f)
  | inlineCode (f : Fragment) (source : Option Cell) (refs : f.builder.refs = [])
      (bytes : f.builder.bits.length % 8 = 0) (short : f.builder.bits.length ≤ 8 * 15) :
      Encodes e .inlineCode (.code f source)
        ((e.addBits (.ofNat 4 (f.builder.bits.length / 8))).addInline f)
  | longInlineCode (f : Fragment) (source : Option Cell) (refs : f.builder.refs.length ≤ 3)
      (bytes : f.builder.bits.length % 8 = 0) (short : f.builder.bits.length ≤ 8 * 127) :
      Encodes e .longInlineCode (.code f source)
        ((e.addBits (.ofNat 2 f.builder.refs.length ++
          .ofNat 7 (f.builder.bits.length / 8))).addInline f)
  | shortSlice (bits : Bits) (short : (bits.length + 4) / 8 ≤ 15) :
      Encodes e .shortSlice (.bits bits) (e.addBits (.ofNat 4 ((bits.length + 4) / 8) ++ bits ++
        true :: List.replicate (8 * ((bits.length + 4) / 8) + 4 - bits.length - 1) false))

/-- There is no other way to encode an operand. -/
theorem encodes_of_encode (field : Field) (o : Operand Fragment) (e e' : Encoding)
    (h : field.encode o e = .ok e') : Encodes e field o e' := by
  -- Each field takes operands of one kind and refuses all others.
  cases field with
  | stack width =>
    cases o with
    | stack index =>
      obtain ⟨bits, hbits, h⟩ := (bind_eq_ok _ _ _).mp h
      cases h
      exact .stack width index bits hbits
    | _ => cases h
  | control width =>
    cases o with
    | control index =>
      obtain ⟨bits, hbits, h⟩ := (bind_eq_ok _ _ _).mp h
      cases h
      exact .control width index bits hbits
    | _ => cases h
  | unsigned width bias =>
    cases o with
    | integer value =>
      obtain ⟨bits, hbits, h⟩ := (bind_eq_ok _ _ _).mp h
      cases h
      exact .unsigned width bias value bits hbits
    | _ => cases h
  | signed width =>
    cases o with
    | integer value =>
      obtain ⟨bits, hbits, h⟩ := (bind_eq_ok _ _ _).mp h
      cases h
      exact .signed width value bits hbits
    | _ => cases h
  -- A small number is written if it is in its range.
  | tiny =>
    cases o with
    | integer value =>
      simp only [encode] at h
      split at h
      · rename_i hrange
        cases h
        exact .tiny value hrange
      · cases h
    | _ => cases h
  | code =>
    cases o with
    | code f source =>
      cases h
      exact .code f source
    | _ => cases h
  | cell =>
    cases o with
    | code f source =>
      cases h
      exact .cell f source
    | _ => cases h
  -- Inline code has no references and full bytes, up to fifteen of them.
  | inlineCode =>
    cases o with
    | code f source =>
      simp only [encode] at h
      split at h
      · rename_i hfits
        cases h
        exact .inlineCode f source (List.isEmpty_iff.mp hfits.1) hfits.2.1 hfits.2.2
      · cases h
    | _ => cases h
  -- Long inline code may have three references and up to 127 bytes.
  | longInlineCode =>
    cases o with
    | code f source =>
      simp only [encode] at h
      split at h
      · rename_i hfits
        cases h
        exact .longInlineCode f source hfits.1 hfits.2.1 hfits.2.2
      · cases h
    | _ => cases h
  -- The length of a short slice has four bits.
  | shortSlice =>
    cases o with
    | bits bits =>
      simp only [encode] at h
      split at h
      · rename_i hfits
        cases h
        exact .shortSlice bits hfits
      · cases h
    | _ => cases h

/-- Fields of numbers. -/
def isNumber : Field → Bool
  | unsigned _ _ => true
  | signed _ => true
  | tiny => true
  | _ => false

/-- Fields that hold code or a cell. -/
def takesCode : Field → Bool
  | code => true
  | cell => true
  | inlineCode => true
  | longInlineCode => true
  | _ => false

/-- The kinds of field and operand agree. -/
def SameKind (field : Field) : Operand Fragment → Prop
  | .integer _ => field.isNumber
  | .code _ _ => field.takesCode
  | _ => field.isNumber = false ∧ field.takesCode = false

/-- A field only takes operands of its kind. -/
theorem Encodes.sameKind {e e' : Encoding} {field : Field} {o : Operand Fragment}
    (h : Encodes e field o e') : field.SameKind o := by
  cases h <;> simp [SameKind, isNumber, takesCode]

/-- An operand adds no other references than its own. -/
theorem Encodes.refs {e e' : Encoding} {field : Field} {o : Operand Fragment}
    (h : Encodes e field o e') (r : Cell) (hr : r ∈ e'.refs) : r ∈ e.refs ∨ o.Refers r := by
  -- Code in a cell of its own adds this cell.
  have href (f : Fragment) (source : Option Cell) (ho : o = .code f source)
      (hr : r ∈ (e.addRef f).refs) : r ∈ e.refs ∨ o.Refers r := by
    rcases List.mem_append.mp hr with hr | hr
    · exact .inl hr
    · exact .inr ⟨f, source, ho, .inl (List.mem_singleton.mp hr)⟩
  -- Inline code adds its own references.
  have hinline (f : Fragment) (source : Option Cell) (bits : Bits) (ho : o = .code f source)
      (hr : r ∈ ((e.addBits bits).addInline f).refs) : r ∈ e.refs ∨ o.Refers r := by
    rcases List.mem_append.mp hr with hr | hr
    · exact .inl hr
    · exact .inr ⟨f, source, ho, .inr hr⟩
  cases h with
  | code f source => exact href f source rfl hr
  | cell f source => exact href f source rfl hr
  | inlineCode f source => exact hinline f source _ rfl hr
  | longInlineCode f source => exact hinline f source _ rfl hr
  -- All other fields add bits only.
  | _ => exact .inl hr

end Field

namespace Opcode

/-- Operands that are added one after the other have fields of their kinds, and the references
    are those of the operands. -/
private theorem foldlM_encode_holds (fields : List Field) (operands : List (Operand Fragment))
    (e e' : Encoding) (hlength : operands.length = fields.length)
    (hfold : (fields.zip operands).foldlM (fun e (field, o) => field.encode o e) e = .ok e') :
    List.Forall₂ Field.SameKind fields operands ∧
      ∀ r ∈ e'.refs, r ∈ e.refs ∨ ∃ o ∈ operands, o.Refers r := by
  -- Induction on the fields and the operands with them.
  induction fields generalizing operands e with
  | nil =>
    obtain rfl := List.length_eq_zero_iff.mp hlength
    cases hfold
    exact ⟨.nil, fun r hr => .inl hr⟩
  | cons field fields ih =>
    cases operands with
    | nil => cases hlength
    | cons o operands =>
      obtain ⟨e₁, he₁, hrest⟩ := (foldlM_cons_eq_ok _ _ _ _ _).mp hfold
      -- What the first field does, and by induction what the others do.
      have hencodes := field.encodes_of_encode o e e₁ he₁
      obtain ⟨hkinds, hothers⟩ := ih operands e₁ (Nat.succ.inj hlength) hrest
      refine ⟨.cons hencodes.sameKind hkinds, ?_⟩
      intro r hr
      -- The reference was added by one of the others, by the first one, or it was there before.
      rcases hothers r hr with hr | ⟨o', ho', hr⟩
      · rcases hencodes.refs r hr with hr | hr
        · exact .inl hr
        · exact .inr ⟨o, List.mem_cons_self, hr⟩
      · exact .inr ⟨o', List.mem_cons_of_mem _ ho', hr⟩

/-- Each operand of an encoding has a field of its kind, and its references are those of the
    operands. -/
theorem Format.encode_holds (h : Format) (operands : List (Operand Fragment)) (e : Encoding)
    (hencode : h.encode operands = .ok e) :
    List.Forall₂ Field.SameKind h.fields operands ∧
      ∀ r ∈ e.refs, ∃ o ∈ operands, o.Refers r := by
  unfold Format.encode at hencode
  split at hencode
  · cases hencode
  · -- The numbers of fields and operands agree, so the operands are added one by one.
    rename_i hlength
    obtain ⟨hkinds, hrefs⟩ := foldlM_encode_holds h.fields operands _ e (not_not.mp hlength) hencode
    refine ⟨hkinds, ?_⟩
    intro r hr
    exact (hrefs r hr).resolve_left (List.not_mem_nil)

end Opcode

/-- The encoding that is taken belongs to one of the formats and is not shadowed. -/
theorem Listing.firstEncoding_eq_ok (operands : List (Operand Fragment))
    (formats : List Opcode.Format) (reason : Option Unfit) (e : Encoding)
    (h : firstEncoding operands formats reason = .ok e) :
    ∃ format ∈ formats, format.encode operands = .ok e ∧
      Opcode.standard.shadowing? format e.bits = none := by
  -- Induction on the formats that are tried.
  induction formats generalizing reason with
  | nil => cases h
  | cons format formats ih =>
    unfold firstEncoding tryEncode at h
    cases hencode : format.encode operands with
    -- The operands do not fit the first one.
    | error error =>
      simp only [hencode] at h
      obtain ⟨other, hmem, hother⟩ := ih _ h
      exact ⟨other, List.mem_cons_of_mem _ hmem, hother⟩
    | ok e' =>
      simp only [hencode] at h
      cases hshadow : Opcode.standard.shadowing? format e'.bits with
      -- The first one is shadowed, so it is passed over too.
      | some other =>
        simp only [hshadow] at h
        obtain ⟨other, hmem, hother⟩ := ih _ h
        exact ⟨other, List.mem_cons_of_mem _ hmem, hother⟩
      -- The first one is taken.
      | none =>
        simp only [hshadow] at h
        cases h
        exact ⟨format, List.mem_cons_self .., hencode, hshadow⟩

/-! ## Cells in the table -/

namespace Opcode

/-- A mnemonic that takes a cell has one form of operands. -/
private theorem instructions_cells_agree : ∀ h ∈ instructions, .cell ∈ h.fields →
    ∀ h' ∈ instructions, h'.name = h.name → h'.fields = h.fields := by
  decide +kernel

/-- All encodings of a mnemonic have cells in the same places. -/
theorem cell_iff_of_name_eq (h h' : Format) (hmem : h ∈ instructions)
    (hmem' : h' ∈ instructions) (hname : h'.name = h.name) :
    ∀ pair ∈ h.fields.zip h'.fields, pair.1 = .cell ↔ pair.2 = .cell := by
  intro pair hpair
  -- A mnemonic that takes a cell has the same fields in all formats.
  by_cases hcell : .cell ∈ h.fields
  · rw [instructions_cells_agree h hmem hcell h' hmem' hname] at hpair
    have hsame : List.Forall₂ (· = ·) h.fields h.fields := List.forall₂_refl h.fields
    rw [List.forall₂_zip hsame hpair]
  · -- If this format takes no cell, then no format of the mnemonic does.
    have hcell' : .cell ∉ h'.fields := by
      intro hcell'
      have hfields := instructions_cells_agree h' hmem' hcell' h hmem hname.symm
      exact hcell (hfields ▸ hcell')
    constructor
    · intro h
      exact absurd (h ▸ (List.of_mem_zip hpair).1) hcell
    · intro h
      exact absurd (h ▸ (List.of_mem_zip hpair).2) hcell'

/-- An instruction with a number takes code in no other form than a cell. -/
theorem instructions_number_code : ∀ h ∈ instructions, h.fields.any Field.isNumber →
    ∀ field ∈ h.fields, field.takesCode → field = .cell := by
  decide +kernel

end Opcode

end CellCode
