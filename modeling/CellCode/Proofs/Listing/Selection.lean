import CellCode.Proofs.Container.Bytes
import CellCode.Proofs.Listing.Acceptance
import CellCode.Proofs.Opcode.Spelling

/-!
# The assembler takes the shortest encoding

One instruction may be spelled in several ways: a number fits into fields of several widths, and
a constant bit string may be followed by more zeros than its length needs. The assembler tries the
encodings of a mnemonic in the order of the table and compares no lengths. It still finds an
encoding for every instruction that can be decoded, and none that is longer than what was decoded:
the table has the shorter formats first, and a field writes its operand in as few bits as any that
spell it.

## Key results

- `Field.rewrites_of_spells`, `Opcode.Format.encode_of_spells`: what is spelled can be encoded
  again, in as many bits or fewer
- `firstEncoding_of_mem`: the first encoding is that of a format or of one before it
- `encodeInstruction_shortest`: no spelling of an instruction is shorter than its encoding
-/

namespace CellCode

-- Powers and sums are those of the standard library, whatever else is in scope.
attribute [local instance (high)] instPowNat Zero.ofOfNat0

/-! ## Operands that can be encoded again -/

namespace Field

/-- Fields that hold nested code. -/
def nests : Field → Bool
  | code => true
  | inlineCode => true
  | longInlineCode => true
  | _ => false

/-- Fields that take the same number of bits for every operand. -/
def fixed : Field → Bool
  | inlineCode => false
  | longInlineCode => false
  | shortSlice => false
  | _ => true

/-- A number read from bits is written back as them. -/
private theorem unsignedBits_toNat (bits : Bits) :
    unsignedBits bits.toNat bits.length = .ok bits := by
  have hlt := Bits.toNat_lt bits
  have hpow : ((2 ^ bits.length : Nat) : Int) = 2 ^ bits.length := Int.natCast_pow 2 _
  rw [unsignedBits, if_pos (by omega), Int.toNat_natCast, Bits.ofNat_toNat]

/-- A number in two's complement is written in the bits that it was read from. -/
private theorem signedBits_signed (bits : Bits) (hwidth : 0 < bits.length) :
    signedBits (Bits.signed bits.length bits.toNat) bits.length = .ok bits := by
  have hlt := Bits.toNat_lt bits
  have hbits := Bits.ofNat_toNat bits
  generalize bits.toNat = n at hlt hbits ⊢
  obtain ⟨k, hk⟩ : ∃ k, bits.length = k + 1 := ⟨bits.length - 1, by omega⟩
  rw [hk] at hlt hbits ⊢
  have hpow : ((2 ^ k : Nat) : Int) = 2 ^ k := Int.natCast_pow 2 k
  -- `omega` knows no powers, so twice the power is stated for both kinds of numbers.
  have hdouble : (2 : Int) ^ (k + 1) = 2 * 2 ^ k := by rw [Int.pow_succ]; omega
  have hdoubleNat : 2 ^ (k + 1) = 2 * 2 ^ k := by rw [Nat.pow_succ]; omega
  -- A number whose first bit is set was read as a negative one, and the remainder undoes that.
  have hmod : Bits.signed (k + 1) n % 2 ^ (k + 1) = n := by
    unfold Bits.signed
    split
    · rw [Int.sub_emod_right, Int.emod_eq_of_lt (by omega) (by omega)]
    · exact Int.emod_eq_of_lt (by omega) (by omega)
  -- The number is in the range of its width, which is what the writer checks.
  have hrange : -(2 ^ k : Int) ≤ Bits.signed (k + 1) n ∧ Bits.signed (k + 1) n < 2 ^ k := by
    unfold Bits.signed
    simp only [Nat.add_sub_cancel]
    split <;> omega
  simp only [signedBits, Nat.add_sub_cancel]
  rw [if_pos hrange, Bits.ofInt, hmod, Int.toNat_natCast, hbits]

/-- A number from -5 to 10 is written in the four bits that it was read from. -/
private theorem ofInt_tiny (bits : Bits) (hlength : bits.length = 4) :
    Bits.ofInt 4 (((bits.toNat + 5) % 16 : Nat) - 5) = bits := by
  have hlt := Bits.toNat_lt bits
  -- The four bits leave less than 16 numbers, for which the remainders can be computed.
  rw [hlength] at hlt
  have hmod : ((((bits.toNat + 5) % 16 : Nat) : Int) - 5) % 2 ^ 4 = bits.toNat := by
    show ((((bits.toNat + 5) % 16 : Nat) : Int) - 5) % 16 = bits.toNat
    omega
  rw [Bits.ofInt, hmod, Int.toNat_natCast, ← hlength, Bits.ofNat_toNat]

/-- Encoding an operand adds the same bits or, where the operand is a constant bit string, not
    more of them. -/
def Rewrites (field : Field) (given : Operand Fragment) (bits : Bits) : Prop :=
  ∀ e, ∃ e' added, field.encode given e = .ok e' ∧ e'.bits = e.bits ++ added ∧
    added.length ≤ bits.length ∧ (field ≠ shortSlice → added = bits)

/-- Bits that are added as they are rewrite themselves. -/
private theorem rewrites_of_addBits {field : Field} {given : Operand Fragment} {bits : Bits}
    (h : ∀ e, field.encode given e = .ok (e.addBits bits)) : field.Rewrites given bits := by
  intro e
  exact ⟨e.addBits bits, bits, h e, rfl, Nat.le_refl _, fun _ => rfl⟩

/-- A constant bit string is written with the shortest length that leaves room for its tag. -/
private theorem rewrites_shortSlice (count body constant : Bits) (hcount : count.length = 4)
    (hbody : body.length = 8 * count.toNat + 4) (htagged : body.untag? = some constant) :
    shortSlice.Rewrites (.bits constant) (count ++ body) := by
  intro e
  -- The constant is shorter than the body, so its own length is at most the one announced.
  have hless := Bits.length_of_untag? body constant htagged
  have hlt : count.toNat < 16 := by
    have hlt := Bits.toNat_lt count
    rwa [hcount] at hlt
  -- The length check passes, and the field then writes count, constant and padding.
  refine ⟨_, _, if_pos (by omega), rfl, ?_, fun h => absurd rfl h⟩
  simp only [List.length_append, List.length_cons, List.length_replicate, Bits.length_ofNat]
  omega

/-- What spells an operand without nested code can be encoded again. -/
theorem rewrites_of_spells {field : Field} {bits : Bits} {refs : List Cell}
    {operand : Operand Cell} {given : Operand Fragment} (h : field.Spells bits refs operand)
    (hproper : field.Proper) (hplain : operand.body? = none) (hgiven : given.ComesBack operand) :
    field.Rewrites given bits := by
  -- The bits of a number are those that the number is written with again.
  -- The cases are those of `Field.Spells`, field by field.
  cases h with
  | stack | control =>
    cases hgiven
    refine rewrites_of_addBits fun e => ?_
    simp only [encode, unsignedBits_toNat]
    rfl
  | unsigned _ bias =>
    cases hgiven
    refine rewrites_of_addBits fun e => ?_
    simp only [encode, Int.add_sub_cancel, unsignedBits_toNat]
    rfl
  | signed =>
    cases hgiven
    refine rewrites_of_addBits fun e => ?_
    simp only [encode, signedBits_signed bits hproper]
    rfl
  | tiny _ hlength =>
    cases hgiven
    refine rewrites_of_addBits fun e => ?_
    simp only [encode, ofInt_tiny bits hlength]
    rw [if_pos (by omega)]
    rfl
  -- A cell is a reference and takes no bits.
  | cell c =>
    cases hgiven with
    | cell f source =>
      intro e
      exact ⟨e.addRef f, [], rfl, by simp [Encoding.addRef], Nat.le_refl _, fun _ => rfl⟩
  | shortSlice count body constant hcount hbody htagged =>
    cases hgiven
    exact rewrites_shortSlice count body constant hcount hbody htagged
  -- Nested code was ruled out.
  | code | inlineCode | longInlineCode => cases hplain

/-- A field nests code exactly when the operands it spells do. -/
theorem nests_of_spells {field : Field} {bits : Bits} {refs : List Cell}
    {operand : Operand Cell} (h : field.Spells bits refs operand) :
    field.nests = operand.body?.isSome := by
  -- Only the three code fields nest code, and their operands alone have a body.
  cases h <;> rfl

/-- A field of fixed width spells its operand in just that many bits. -/
theorem length_of_spells {field : Field} {bits : Bits} {refs : List Cell}
    {operand : Operand Cell} (h : field.Spells bits refs operand) (hfixed : field.fixed) :
    bits.length = field.leastWidth := by
  cases h with
  | tiny _ hlength => exact hlength
  -- These three have no fixed width.
  | inlineCode | longInlineCode | shortSlice => cases hfixed
  | _ => rfl

end Field

/-! ## Instructions that can be encoded again -/

/-- Operands without nested code are determined by what is given for them. -/
theorem Operand.eq_of_comesBack {given : List (Operand Fragment)} {os os' : List (Operand Cell)}
    (h : List.Forall₂ ComesBack given os) (h' : List.Forall₂ ComesBack given os')
    (hplain : ∀ o ∈ os, o.body? = none) (hplain' : ∀ o ∈ os', o.body? = none) : os = os' := by
  -- Induction on what is given; both lists of operands go along with it.
  induction h generalizing os' with
  | nil =>
    cases h'
    rfl
  | cons ho hos ih =>
    cases h' with
    | cons ho' hos' =>
      have hhead := hplain _ List.mem_cons_self
      have hhead' := hplain' _ List.mem_cons_self
      have htail := ih hos' (fun o ho => hplain o (List.mem_cons_of_mem _ ho))
        (fun o ho => hplain' o (List.mem_cons_of_mem _ ho))
      rw [htail]
      congr 1
      -- Given code comes back as a cell in one way only, if not as code.
      cases ho with
      | code | inline => cases hhead
      | cell =>
        cases ho' with
        | code | inline => cases hhead'
        | cell => rfl
      | _ => cases ho'; rfl

namespace Opcode

namespace Format

variable {fields : List Field} {bits : Bits} {refs : List Cell} {operands : List (Operand Cell)}

/-- Each field spells one operand. -/
theorem Spells.count (h : Spells fields bits refs operands) : operands.length = fields.length := by
  induction h with
  | nil => rfl
  | cons _ _ ih => rw [List.length_cons, List.length_cons, ih]

/-- No field nests code exactly when no operand does. -/
theorem Spells.plain_iff (h : Spells fields bits refs operands) :
    -- Induction on the fields.
    fields.any Field.nests = false ↔ ∀ o ∈ operands, o.body? = none := by
  induction h with
  | nil => simp
  | cons first _ ih => simp [Field.nests_of_spells first, ← ih]

/-- Fields of fixed widths take the sum of them. -/
theorem Spells.length (h : Spells fields bits refs operands) (hfixed : fields.all Field.fixed) :
    bits.length = (fields.map Field.leastWidth).sum := by
  induction h with
  | nil => rfl
  | cons first _ ih =>
    rw [List.all_cons, Bool.and_eq_true] at hfixed
    rw [List.length_append, Field.length_of_spells first hfixed.1, ih hfixed.2, List.map_cons,
      List.sum_cons]

/-- Operands are given for all that is spelled without nested code. -/
theorem Spells.exists_given (h : Spells fields bits refs operands)
    (hplain : ∀ o ∈ operands, o.body? = none) :
    ∃ given, List.Forall₂ Operand.ComesBack given operands := by
  -- Induction on the fields, with an operand given for each kind.
  induction h with
  | nil => exact ⟨[], .nil⟩
  | cons first _ ih =>
    obtain ⟨given, hgiven⟩ := ih fun o ho => hplain o (List.mem_cons_of_mem _ ho)
    have hhead := hplain _ List.mem_cons_self
    cases first with
    | code | inlineCode | longInlineCode => cases hhead
    | cell c =>
      -- A cell is given as a fragment that holds it and nothing else.
      have hback := Operand.ComesBack.cell ⟨.ofCell c, .empty⟩ none
      rw [Builder.cell_ofCell] at hback
      exact ⟨_, .cons hback hgiven⟩
    | stack | control => exact ⟨_, .cons (by constructor) hgiven⟩
    | unsigned | signed | tiny => exact ⟨_, .cons (.integer _) hgiven⟩
    | shortSlice => exact ⟨_, .cons (.bits _) hgiven⟩

/-- Fields one by one: each adds its bits to what has been encoded. -/
private theorem foldlM_encode_of_spells (h : Spells fields bits refs operands)
    (given : List (Operand Fragment)) (e : Encoding) (hproper : ∀ field ∈ fields, field.Proper)
    (hplain : ∀ o ∈ operands, o.body? = none)
    (hgiven : List.Forall₂ Operand.ComesBack given operands) :
    ∃ e' added, (fields.zip given).foldlM (fun e (field, o) => field.encode o e) e = .ok e' ∧
      e'.bits = e.bits ++ added ∧ added.length ≤ bits.length ∧
      (.shortSlice ∉ fields → added = bits) := by
  -- Induction on the fields, with what has been encoded so far.
  induction h generalizing given e with
  | nil => exact ⟨e, [], rfl, by simp, Nat.le_refl _, fun _ => rfl⟩
  | cons first _ ih =>
    cases hgiven with
    | cons ho hgiven =>
      -- What the first field adds, and what the others add behind it.
      obtain ⟨e₁, added₁, hencode₁, hbits₁, hle₁, hsame₁⟩ :=
        Field.rewrites_of_spells first (hproper _ List.mem_cons_self)
          (hplain _ List.mem_cons_self) ho e
      obtain ⟨e₂, added₂, hencode₂, hbits₂, hle₂, hsame₂⟩ :=
        ih _ e₁ (fun field hfield => hproper field (List.mem_cons_of_mem _ hfield))
          (fun o ho => hplain o (List.mem_cons_of_mem _ ho)) hgiven
      refine ⟨e₂, added₁ ++ added₂, ?_, ?_, ?_, ?_⟩
      · exact (foldlM_cons_eq_ok _ _ _ _ _).mpr ⟨e₁, hencode₁, hencode₂⟩
      · rw [hbits₂, hbits₁, List.append_assoc]
      · simp only [List.length_append]
        omega
      · intro hfields
        rw [List.mem_cons, not_or] at hfields
        -- A field is no short slice, and neither are those behind it.
        rw [hsame₁ (Ne.symm hfields.1), hsame₂ hfields.2]

/-- What spells an instruction without nested code can be encoded again, in as many bits or
    fewer, and in the same bits unless there is a constant bit string. -/
theorem encode_of_spells (h : Format) (hspells : Spells h.fields bits refs operands)
    (given : List (Operand Fragment)) (hproper : ∀ field ∈ h.fields, field.Proper)
    (hplain : ∀ o ∈ operands, o.body? = none)
    (hgiven : List.Forall₂ Operand.ComesBack given operands) :
    ∃ e added, h.encode given = .ok e ∧ e.bits = h.opcode ++ added ∧
      added.length ≤ bits.length ∧ (.shortSlice ∉ h.fields → added = bits) := by
  obtain ⟨e, added, hencode, hbits, hle, hsame⟩ :=
    foldlM_encode_of_spells hspells given ⟨h.opcode, [], .empty⟩ hproper hplain hgiven
  have hcount : given.length = h.fields.length := hgiven.length_eq.trans hspells.count
  refine ⟨e, added, ?_, hbits, hle, hsame⟩
  -- There are as many operands as fields, so `encode` does not refuse their number.
  rw [encode, if_neg (by omega)]
  exact hencode

end Format

/-! ## The order of the table -/

/-- If a format of a mnemonic nests code, they all do. -/
private theorem instructions_nests : ∀ g ∈ instructions, g.fields.any Field.nests →
    ∀ h ∈ instructions, g.name = h.name → h.fields.any Field.nests := by
  decide +kernel

/-- Of the formats of a mnemonic that nests no code, an earlier one takes a fixed number of bits,
    and a later one as many at least. -/
private theorem instructions_shorter_first : instructions.Pairwise fun g h =>
    g.name = h.name → h.fields.any Field.nests = false →
      g.fields.all Field.fixed ∧
        g.opcode.length + g.leastWidth ≤ h.opcode.length + h.leastWidth := by
  decide +kernel

/-- No opcode goes on behind that of a constant bit string. -/
private theorem instructions_shortSlice_last : ∀ h ∈ instructions, .shortSlice ∈ h.fields →
    ∀ g ∈ instructions, h.opcode.isPrefixOf g.opcode → g.opcode.length ≤ h.opcode.length := by
  decide +kernel

/-- An instruction that was decoded is not shadowed when it is encoded again: a longer opcode
    would have been found. -/
private theorem unshadowed_of_find? (h : Format) (data bits added : Bits)
    (hfind : standard.find? data = some h) (hbits : h.opcode ++ bits <+: data)
    (hadded : .shortSlice ∉ h.fields → added = bits) :
    standard.shadowing? h (h.opcode ++ added) = none := by
  obtain ⟨hmem, -, -, hlongest⟩ :=
    (Table.findLonger?_eq_some instructions _ _ h instructions_opcodes_nodup).mp hfind
  -- Nothing shadows the encoding: an opcode that stands at its front is not longer.
  refine (Table.findLonger?_eq_none instructions _ _).mpr ?_
  intro g hg hopcode hlonger
  have hle : g.opcode.length ≤ h.opcode.length := by
    by_cases hslice : .shortSlice ∈ h.fields
    · -- Here the bits may differ from those decoded, but no opcode is longer than this one.
      have hpre : h.opcode <+: g.opcode :=
        List.prefix_of_prefix_length_le (List.prefix_append _ _) hopcode (by omega)
      exact instructions_shortSlice_last h hmem hslice g hg (List.isPrefixOf_iff_prefix.mpr hpre)
    · rw [hadded hslice] at hopcode
      exact hlongest g hg (hopcode.trans hbits)
  omega

/-- The encoding of a format with fields of fixed widths has the least length. -/
private theorem length_of_fixed (g : Format) (given : List (Operand Fragment)) (e : Encoding)
    (hmem : g ∈ instructions) (hfixed : g.fields.all Field.fixed)
    (hencode : g.encode given = .ok e) : e.bits.length = g.opcode.length + g.leastWidth := by
  -- Read back from a cell of its own, the encoding spells what it holds.
  have hshows := Slice.shows_cell ⟨e.bits ++ [], e.refs ++ []⟩
  obtain ⟨bits, -, -, -, hbits, hspells⟩ :=
    g.decode_encoding given e _ [] [] hmem hencode hshows
  rw [hbits, List.length_append, hspells.length hfixed]
  rfl

end Opcode

/-! ## The encoding that is taken -/

namespace Listing

open Opcode (Format standard instructions)

/-- If an encoding can be taken, then it or an earlier one is. -/
theorem firstEncoding_of_mem (operands : List (Operand Fragment)) (formats : List Format)
    (reason : Option Unfit) (h : Format) (e : Encoding) (hmem : h ∈ formats)
    (htry : tryEncode h operands = .ok e) :
    ∃ g e', firstEncoding operands formats reason = .ok e' ∧ tryEncode g operands = .ok e' ∧
      (g = h ∨ [g, h].Sublist formats) := by
  -- Induction on the formats that are tried.
  induction formats generalizing reason with
  | nil => cases hmem
  | cons g formats ih =>
    unfold firstEncoding
    cases hg : tryEncode g operands with
    -- The first one can be taken, and it is the format itself or stands before it.
    | ok e' =>
      refine ⟨g, e', rfl, hg, ?_⟩
      rcases List.mem_cons.mp hmem with rfl | hmem
      · exact .inl rfl
      · exact .inr ((List.singleton_sublist.mpr hmem).cons_cons g)
    | error unfit =>
      -- The first one cannot be taken, so it is not the format.
      have hmem : h ∈ formats := by
        rcases List.mem_cons.mp hmem with rfl | hmem
        · rw [hg] at htry
          cases htry
        · exact hmem
      obtain ⟨g', e', hfirst, hg', horder⟩ := ih (some unfit) hmem
      exact ⟨g', e', hfirst, hg', horder.imp_right (·.cons g)⟩

/-- An encoding is taken if the operands fit and no longer opcode stands at its front. -/
theorem tryEncode_eq_ok (h : Format) (operands : List (Operand Fragment)) (e : Encoding) :
    tryEncode h operands = .ok e ↔
      h.encode operands = .ok e ∧ standard.shadowing? h e.bits = none := by
  unfold tryEncode
  cases h.encode operands with
  | error error => exact ⟨nofun, nofun⟩
  | ok e' =>
    -- A shadowed encoding is refused, and one that is not shadowed is returned.
    cases hshadow : standard.shadowing? h e'.bits with
    | some other =>
      simp only [hshadow]
      constructor
      · nofun
      · rintro ⟨he, hnone⟩
        cases he
        rw [hshadow] at hnone
        cases hnone
    | none =>
      simp only [hshadow]
      constructor
      · intro he
        cases he
        exact ⟨rfl, hshadow⟩
      · rintro ⟨he, -⟩
        cases he
        rfl

/-- The format by which an instruction was decoded can be taken to encode it, in as many bits or
    fewer. -/
private theorem tryEncode_of_decode (s rest : Slice) (h : Format) (bits : Bits)
    (refs : List Cell) (operands : List (Operand Cell)) (given : List (Operand Fragment))
    (hfind : standard.find? s.data = some h)
    (hspells : Format.Spells h.fields bits refs operands)
    (hleaves : s.Leaves (h.opcode ++ bits) refs rest) (hplain : ∀ o ∈ operands, o.body? = none)
    (hgiven : List.Forall₂ Operand.ComesBack given operands) :
    ∃ e, tryEncode h given = .ok e ∧ s.bitPos + e.bits.length ≤ rest.bitPos := by
  have hmem : h ∈ instructions := Opcode.Table.mem_of_find? hfind
  obtain ⟨e, added, hencode, hbits, hle, hsame⟩ :=
    h.encode_of_spells hspells given (Opcode.instructions_fields_proper h hmem) hplain hgiven
  refine ⟨e, (tryEncode_eq_ok h given e).mpr ⟨hencode, ?_⟩, ?_⟩
  · -- The length of what was decoded is how far the window moved.
    rw [hbits]
    exact Opcode.unshadowed_of_find? h s.data bits added hfind ⟨_, hleaves.data_eq.symm⟩ hsame
  · rw [hleaves.rest_eq, hbits]
    simp only [List.length_append]
    omega

/-- The format that is taken is no longer than a later one of its mnemonic. -/
private theorem length_le_of_earlier (g h : Format) (given : List (Operand Fragment))
    (e e' : Encoding) (hnests : h.fields.any Field.nests = false)
    (horder : [g, h].Sublist (standard.candidates h.name)) (hg : tryEncode g given = .ok e')
    (hh : tryEncode h given = .ok e) : e'.bits.length ≤ e.bits.length := by
  have hsublist : [g, h].Sublist instructions := horder.trans List.filter_sublist
  have hmem (f : Format) (hf : f ∈ [g, h]) : f ∈ instructions := hsublist.subset hf
  have hname : g.name = h.name := by
    have hcandidate := (List.mem_filter.mp (horder.subset List.mem_cons_self)).2
    exact eq_of_beq hcandidate
  -- The table has the shorter of two formats of a mnemonic first.
  obtain ⟨hfixed, hwidth⟩ := List.pairwise_iff_forall_sublist.mp
    Opcode.instructions_shorter_first hsublist hname hnests
  have hencode := ((tryEncode_eq_ok g given e').mp hg).1
  have hencode' := ((tryEncode_eq_ok h given e).mp hh).1
  -- What the later one encodes has at least its least width.
  have hleast := (h.decode_encode given e
    (Opcode.instructions_fields_proper h (hmem h (by simp))) hencode').2.1
  have hlength := Opcode.length_of_fixed g given e' (hmem g (by simp)) hfixed hencode
  omega

/-- What is taken for operands without nested code is decoded to the mnemonic and the operands. -/
private theorem step_of_tryEncode (g : Format) (operands : List (Operand Cell))
    (given : List (Operand Fragment)) (e : Encoding) (t : Slice) (more : Bits)
    (moreRefs : List Cell) (hmem : g ∈ instructions) (hnests : g.fields.any Field.nests = false)
    (hg : tryEncode g given = .ok e) (hplain : ∀ o ∈ operands, o.body? = none)
    (hgiven : List.Forall₂ Operand.ComesBack given operands)
    (ht : t.Shows (e.bits ++ more) (e.refs ++ moreRefs)) :
    ∃ left, Decode.step t = .instruction ⟨g.name, operands⟩ left ∧
      t.Leaves e.bits e.refs left := by
  obtain ⟨hencode, hshadow⟩ := (tryEncode_eq_ok g given e).mp hg
  obtain ⟨bits, left, hdecode, hleaves, -, hspells⟩ :=
    g.decode_encoding given e t more moreRefs hmem hencode ht
  -- The opcode is found again, since nothing shadows the encoding.
  have hfind : standard.find? t.data = some g := by
    rw [ht.data_eq]
    exact Opcode.find?_encode g given e more hmem hencode hshadow
  -- What the format holds comes back from what is given, so it is the operands.
  have hheld : g.held given = operands := by
    have hback := g.held_comesBack given e hencode
    have hplain' : ∀ o ∈ g.held given, o.body? = none := hspells.plain_iff.mp hnests
    exact Operand.eq_of_comesBack hback hgiven hplain' hplain
  rw [hheld] at hdecode
  exact ⟨left, Decode.step_of_find? t left g operands hfind hdecode, hleaves⟩

/-- An instruction without nested code that was decoded is encoded by the assembler, whatever
    fragments its cells are given as. The encoding is decoded to the same instruction, and it is
    not longer than what was decoded. -/
theorem encodeInstruction_shortest (s rest : Slice) (h : Format) (operands : List (Operand Cell))
    (hs : s.Valid) (hfind : standard.find? s.data = some h)
    (hdecode : h.decode s = ⟨operands, .ok rest⟩) (hplain : ∀ o ∈ operands, o.body? = none) :
    (∃ given, List.Forall₂ Operand.ComesBack given operands) ∧
      ∀ given, List.Forall₂ Operand.ComesBack given operands → ∃ e,
        (∀ line, encodeInstruction line h.name (given.map .operand) = .ok e) ∧
        s.bitPos + e.bits.length ≤ rest.bitPos ∧
        ∀ (t : Slice) (more : Bits) (moreRefs : List Cell),
          t.Shows (e.bits ++ more) (e.refs ++ moreRefs) →
            ∃ left, Decode.step t = .instruction ⟨h.name, operands⟩ left ∧
              t.Leaves e.bits e.refs left := by
  -- The opcode stands at the front, and its fields spell what was decoded.
  obtain ⟨hmem, hopcode, -⟩ := (Opcode.Table.findLonger?_eq_some instructions _ _ h
    Opcode.instructions_opcodes_nodup).mp hfind
  obtain ⟨bits, refs, hspells, hleaves⟩ := h.decode_spells s rest operands hs hopcode hdecode
  have hnests : h.fields.any Field.nests = false := hspells.plain_iff.mpr hplain
  refine ⟨hspells.exists_given hplain, ?_⟩
  intro given hgiven
  obtain ⟨e₀, htry, hle⟩ :=
    tryEncode_of_decode s rest h bits refs operands given hfind hspells hleaves hplain hgiven
  have hcandidate : h ∈ standard.candidates h.name :=
    List.mem_filter.mpr ⟨hmem, beq_self_eq_true _⟩
  -- The encoding that is taken is that of the format decoded, or of an earlier and shorter one.
  obtain ⟨g, e, hfirst, hg, horder⟩ :=
    firstEncoding_of_mem given (standard.candidates h.name) none h e₀ hcandidate htry
  refine ⟨e, ?_, ?_, ?_⟩
  · -- Which line the instruction stands on does not matter.
    intro line
    have hencode := (encodeInstruction_operands line h.name given [] e).mpr (by simpa using hfirst)
    simpa using hencode
  · -- The encoding is the one for the decoded format, or that of an earlier format.
    rcases horder with rfl | horder
    · rw [hg] at htry
      cases htry
      exact hle
    · have := length_le_of_earlier g h given e₀ e hnests horder hg htry
      omega
  · intro t more moreRefs ht
    have hgmem : g ∈ standard.candidates h.name := by
      rcases horder with rfl | horder
      · exact hcandidate
      · exact horder.subset List.mem_cons_self
    obtain ⟨hgmem, hname⟩ := List.mem_filter.mp hgmem
    have hname : g.name = h.name := eq_of_beq hname
    -- All formats of the mnemonic nest code or none does.
    have hnests' : g.fields.any Field.nests = false := by
      by_contra hnested
      have := Opcode.instructions_nests g hgmem (by simpa using hnested) h hmem hname
      simp [hnests] at this
    rw [← hname]
    exact step_of_tryEncode g operands given e t more moreRefs hgmem hnests' hg hplain hgiven ht

/-- The number three in a field of sixteen bits. -/
def wideThree : Cell := .data (Opcode.hexBits "810003")

/-- It takes sixteen bits and the opcode, where four bits would do. -/
theorem encodeInstruction_shortest_wideThree :
    standard.find? wideThree.toSlice.data = some (Opcode.op "PUSHINT" "81" [.signed 16]) ∧
    (Opcode.op "PUSHINT" "81" [.signed 16]).decode wideThree.toSlice =
      ⟨[.integer 3], .ok ⟨wideThree, 24, 24, 0, 0⟩⟩ ∧
    ∃ e, encodeInstruction 1 "PUSHINT" [.operand (.integer 3)] = .ok e ∧ e.bits.length ≤ 24 := by
  have hfind : standard.find? wideThree.toSlice.data =
      some (Opcode.op "PUSHINT" "81" [.signed 16]) :=
    (Opcode.Table.findLonger?_eq_some instructions _ _ _ Opcode.instructions_opcodes_nodup).mpr
      (by decide +kernel)
  have hdecode : (Opcode.op "PUSHINT" "81" [.signed 16]).decode wideThree.toSlice =
      ⟨[.integer 3], .ok ⟨wideThree, 24, 24, 0, 0⟩⟩ := rfl
  obtain ⟨-, hall⟩ := encodeInstruction_shortest _ _ _ _ (Slice.valid_toSlice _) hfind hdecode
    (by simp [Operand.body?])
  obtain ⟨e, hencode, hle, -⟩ := hall [.integer 3] (.cons (.integer 3) .nil)
  exact ⟨hfind, hdecode, e, hencode 1, by simpa [Cell.toSlice] using hle⟩

end Listing

end CellCode
