import CellCode.Code.Decode
import CellCode.Proofs.Result
import Mathlib.Data.List.Forall2

/-!
# What decoding can return

Each field yields operands of one kind and takes references from the front of the slice. What
a decoded code holds is therefore made up of references of the slice it was decoded from, and
its instructions are those of the table, with the operands that their fields call for.

* `Field.decode_yields`   what one field returns and takes
* `Decode.step_inside`    what stands at the front of a slice
* `Decode.scan_inside`    cells that a code holds are reached from its slice
* `Decode.scan_formed`    instructions of a code are formed as the table says
-/

namespace CellCode

/-- What a field can return, with the references it takes for it. -/
inductive Field.Yields : Field → List Cell → Operand Cell → Prop
  | stack (width n : Nat) : Yields (.stack width) [] (.stack n)
  | control (width n : Nat) : Yields (.control width) [] (.control n)
  | unsigned (width bias : Nat) (v : Int) : Yields (.unsigned width bias) [] (.integer v)
  | signed (width : Nat) (v : Int) : Yields (.signed width) [] (.integer v)
  | tiny (v : Int) : Yields .tiny [] (.integer v)
  | code (c : Cell) : Yields .code [c] (.code c (some c))
  | cell (c : Cell) : Yields .cell [c] (.cell c)
  | inlineCode (bits : Bits) : Yields .inlineCode [] (.code (.data bits) none)
  | longInlineCode (bits : Bits) (refs : List Cell) :
      Yields .longInlineCode refs (.code (.mk bits refs) none)
  | shortSlice (bits : Bits) : Yields .shortSlice [] (.bits bits)

/-- The field can return this operand. -/
def Field.Suits (field : Field) (operand : Operand Cell) : Prop :=
  ∃ taken, field.Yields taken operand

/-- The instruction is one of the table's, with operands that its fields can return. -/
def Instruction.Formed (i : Instruction Cell) : Prop :=
  ∃ h ∈ Opcode.instructions, i.name = h.name ∧ List.Forall₂ Field.Suits h.fields i.operands

/-- The cells that an operand holds have a property: an opaque cell, a cell of code, and what
    nested code refers to. -/
def Operand.Inside (has : Cell → Prop) : Operand Cell → Prop
  | .cell c => has c
  | .code body source => (source.isSome → has body) ∧ ∀ r ∈ body.refs, has r
  | _ => True

/-- The cells that an instruction holds have a property. -/
def Instruction.Inside (has : Cell → Prop) (i : Instruction Cell) : Prop :=
  ∀ operand ∈ i.operands, operand.Inside has

/-! ## Reads keep or take references -/

namespace Slice

/-- A number is read from bits only. -/
private theorem refs_of_loadUInt (s rest : Slice) (n : Int) (v : Nat)
    (h : s.loadUInt n = .ok (v, rest)) : rest.refs = s.refs := by
  obtain ⟨_, _, h⟩ := (bind_eq_ok _ _ _).mp h
  cases h
  rfl

private theorem refs_of_loadInt (s rest : Slice) (n v : Int)
    (h : s.loadInt n = .ok (v, rest)) : rest.refs = s.refs := by
  obtain ⟨_, hload, h⟩ := (bind_eq_ok _ _ _).mp h
  cases h
  exact refs_of_loadUInt _ _ _ _ hload

/-- Bits are read without touching the references. -/
theorem refs_of_loadBits (s rest : Slice) (n : Int) (bits : Bits)
    (h : s.loadBits n = .ok (bits, rest)) : rest.refs = s.refs := by
  obtain ⟨_, _, h⟩ := (bind_eq_ok _ _ _).mp h
  cases h
  rfl

/-- Skipping bits leaves the references as well. -/
private theorem refs_of_skipBits (s rest : Slice) (n : Int) (h : s.skipBits n = .ok rest) :
    rest.refs = s.refs := by
  obtain ⟨_, _, h⟩ := (bind_eq_ok _ _ _).mp h
  cases h
  rfl

end Slice

namespace Field

/-- References are taken one by one from the front. -/
private theorem refs_of_loadRefs (n : Nat) (s rest : Slice) (refs : List Cell)
    (h : read.loadRefs n s = .ok (refs, rest)) : s.refs = refs ++ rest.refs := by
  -- Induction on the number of references that are still to be taken.
  induction n generalizing s refs with
  | zero => cases h; rfl
  | succ n ih =>
    obtain ⟨⟨ref, s₁⟩, hload, h⟩ := (bind_eq_ok _ _ _).mp h
    obtain ⟨⟨refs', s₂⟩, hloads, h⟩ := (bind_eq_ok _ _ _).mp h
    cases h
    rw [(Slice.refs_of_loadRef hload).1, ih s₁ refs' hloads, List.cons_append]

/-! ## Fields -/

/-- What is read for a field, before it is completed. -/
private theorem read_yields (field : Field) (s rest : Slice) (operand : Operand Cell)
    (h : field.read s = .ok (operand, rest)) :
    ∃ taken, s.refs = taken ++ rest.refs ∧ field.Yields taken operand := by
  -- Reads of numbers and bits leave the references alone.
  cases field with
  | stack width =>
    obtain ⟨⟨n, s₁⟩, hload, h⟩ := (bind_eq_ok _ _ _).mp h
    cases h
    exact ⟨[], (Slice.refs_of_loadUInt _ _ _ _ hload).symm, .stack width n⟩
  | control width =>
    obtain ⟨⟨n, s₁⟩, hload, h⟩ := (bind_eq_ok _ _ _).mp h
    cases h
    exact ⟨[], (Slice.refs_of_loadUInt _ _ _ _ hload).symm, .control width n⟩
  | unsigned width bias =>
    obtain ⟨⟨n, s₁⟩, hload, h⟩ := (bind_eq_ok _ _ _).mp h
    cases h
    exact ⟨[], (Slice.refs_of_loadUInt _ _ _ _ hload).symm, .unsigned width bias _⟩
  | signed width =>
    obtain ⟨⟨v, s₁⟩, hload, h⟩ := (bind_eq_ok _ _ _).mp h
    cases h
    exact ⟨[], (Slice.refs_of_loadInt _ _ _ _ hload).symm, .signed width v⟩
  | tiny =>
    obtain ⟨⟨n, s₁⟩, hload, h⟩ := (bind_eq_ok _ _ _).mp h
    cases h
    exact ⟨[], (Slice.refs_of_loadUInt _ _ _ _ hload).symm, .tiny _⟩
  -- A reference to code and one to a cell are the two fields that take exactly one.
  | code =>
    obtain ⟨⟨c, s₁⟩, hload, h⟩ := (bind_eq_ok _ _ _).mp h
    cases h
    exact ⟨[c], (Slice.refs_of_loadRef hload).1, .code c⟩
  | cell =>
    obtain ⟨⟨c, s₁⟩, hload, h⟩ := (bind_eq_ok _ _ _).mp h
    cases h
    exact ⟨[c], (Slice.refs_of_loadRef hload).1, .cell c⟩
  -- The bits of inline code stand behind their count.
  | inlineCode =>
    obtain ⟨⟨n, s₁⟩, hload, h⟩ := (bind_eq_ok _ _ _).mp h
    obtain ⟨⟨bits, s₂⟩, hbits, h⟩ := (bind_eq_ok _ _ _).mp h
    cases h
    refine ⟨[], ?_, .inlineCode bits⟩
    rw [List.nil_append, Slice.refs_of_loadBits _ _ _ _ hbits, Slice.refs_of_loadUInt _ _ _ _ hload]
  | longInlineCode =>
    obtain ⟨⟨count, s₁⟩, hcount, h⟩ := (bind_eq_ok _ _ _).mp h
    -- Long inline code starts with two counts, of references and of bytes, and takes the
    -- references last.
    obtain ⟨⟨n, s₂⟩, hload, h⟩ := (bind_eq_ok _ _ _).mp h
    obtain ⟨⟨bits, s₃⟩, hbits, h⟩ := (bind_eq_ok _ _ _).mp h
    obtain ⟨⟨refs, s₄⟩, hrefs, h⟩ := (bind_eq_ok _ _ _).mp h
    cases h
    refine ⟨refs, ?_, .longInlineCode bits refs⟩
    rw [← refs_of_loadRefs _ _ _ _ hrefs, Slice.refs_of_loadBits _ _ _ _ hbits,
      Slice.refs_of_loadUInt _ _ _ _ hload, Slice.refs_of_loadUInt _ _ _ _ hcount]
  | shortSlice =>
    obtain ⟨⟨n, s₁⟩, hload, h⟩ := (bind_eq_ok _ _ _).mp h
    obtain ⟨⟨bits, s₂⟩, hbits, h⟩ := (bind_eq_ok _ _ _).mp h
    cases h
    refine ⟨[], ?_, .shortSlice bits⟩
    rw [List.nil_append, Slice.refs_of_loadBits _ _ _ _ hbits, Slice.refs_of_loadUInt _ _ _ _ hload]

/-- What a field returns, and the references it takes. -/
theorem decode_yields (field : Field) (s rest : Slice) (operand : Operand Cell)
    (h : field.decode s = .ok (operand, rest)) :
    ∃ taken, s.refs = taken ++ rest.refs ∧ field.Yields taken operand := by
  unfold decode at h
  split at h
  · cases h
  · rename_i o s₁ hread
    obtain ⟨taken, hrefs, hyields⟩ := read_yields field s s₁ o hread
    -- Only a short slice is completed further: its end tag is taken off, or it is refused.
    unfold complete at h
    split at h
    · split at h
      · cases h
      · cases h
        cases hyields
        exact ⟨[], hrefs, .shortSlice _⟩
    · cases h
      exact ⟨taken, hrefs, hyields⟩

/-- An operand holds no other cells than the references it was read from. -/
theorem Yields.inside {field : Field} {taken : List Cell} {operand : Operand Cell}
    (h : field.Yields taken operand) (has : Cell → Prop) (below : ∀ c, has c → ∀ r ∈ c.refs, has r)
    (htaken : ∀ r ∈ taken, has r) : operand.Inside has := by
  cases h with
  | code c =>
    -- The code in a cell may refer to what its cell refers to.
    have hc := htaken c (by simp)
    exact ⟨fun _ => hc, below c hc⟩
  | cell c => exact htaken c (by simp)
  -- Inline code has no cell, and its bits have no references.
  | inlineCode bits => exact ⟨nofun, nofun⟩
  | longInlineCode bits refs => exact ⟨nofun, by rw [Cell.refs_mk]; exact htaken⟩
  | _ => trivial

end Field

/-! ## Instructions -/

namespace Opcode.Format

/-- The operands that were read, even if another one could not be, hold no cells but those
    reached from the slice. -/
theorem decodeFields_inside (fields : List Field) (s : Slice) (has : Cell → Prop)
    (below : ∀ c, has c → ∀ r ∈ c.refs, has r) (hs : ∀ r ∈ s.refs, has r) :
    ∀ operand ∈ (decodeFields fields s).operands, operand.Inside has := by
  -- Induction on the fields: each one takes its references, the others are left for the rest.
  induction fields generalizing s with
  | nil => exact nofun
  | cons field fields ih =>
    unfold decodeFields
    split
    · exact nofun
    · rename_i operand s₁ hdecode
      obtain ⟨taken, hrefs, hyields⟩ := Field.decode_yields field s s₁ operand hdecode
      intro o ho
      rcases List.mem_cons.mp ho with rfl | ho
      · exact hyields.inside has below fun r hr => hs r (hrefs ▸ List.mem_append_left _ hr)
      · exact ih s₁ (fun r hr => hs r (hrefs ▸ List.mem_append_right _ hr)) o ho

/-- The operands of an instruction are what its fields return, one by one. -/
private theorem decodeFields_yields (fields : List Field) (s rest : Slice)
    (h : (decodeFields fields s).outcome = .ok rest) :
    List.Forall₂ Field.Suits fields (decodeFields fields s).operands ∧
      ∀ r ∈ rest.refs, r ∈ s.refs := by
  -- Induction on the fields, as they are read.
  induction fields generalizing s with
  | nil =>
    cases h
    exact ⟨.nil, fun _ hr => hr⟩
  | cons field fields ih =>
    unfold decodeFields at h ⊢
    split at h
    · cases h
    · rename_i operand s₁ hdecode
      obtain ⟨taken, hrefs, hyields⟩ := Field.decode_yields field s s₁ operand hdecode
      obtain ⟨hsuits, hrest⟩ := ih s₁ h
      refine ⟨.cons ⟨taken, hyields⟩ hsuits, ?_⟩
      intro r hr
      rw [hrefs]
      exact List.mem_append_right _ (hrest r hr)

/-- The operands of an instruction hold no cells but those reached from the slice. -/
theorem decode_inside (h : Format) (s : Slice) (has : Cell → Prop)
    (below : ∀ c, has c → ∀ r ∈ c.refs, has r) (hs : ∀ r ∈ s.refs, has r) :
    ∀ operand ∈ (h.decode s).operands, operand.Inside has := by
  unfold decode
  split
  · exact nofun
  · rename_i s₁ hskip
    -- The opcode is skipped, which leaves the references.
    apply decodeFields_inside h.fields s₁ has below
    rw [Slice.refs_of_skipBits _ _ _ hskip]
    exact hs

/-- An instruction is decoded to what its fields return, and leaves some of the references. -/
private theorem decode_yields (h : Format) (s rest : Slice)
    (houtcome : (h.decode s).outcome = .ok rest) :
    List.Forall₂ Field.Suits h.fields (h.decode s).operands ∧ ∀ r ∈ rest.refs, r ∈ s.refs := by
  unfold decode at houtcome ⊢
  split at houtcome
  · cases houtcome
  · rename_i s₁ hskip
    -- The rest comes from the slice behind the opcode, which has the same references.
    rw [← Slice.refs_of_skipBits _ _ _ hskip]
    exact decodeFields_yields h.fields s₁ rest houtcome

end Opcode.Format

namespace Decode

/-- What a step finds is formed as the table says, and the cells it leads to have a property. -/
def Step.Inside (has : Cell → Prop) : Step → Prop
  | jump next => has next
  | instruction i rest => i.Formed ∧ i.Inside has ∧ ∀ r ∈ rest.refs, has r
  | _ => True

/-- What stands at the front of a slice whose references have a property. -/
theorem step_inside (s : Slice) (has : Cell → Prop) (below : ∀ c, has c → ∀ r ∈ c.refs, has r)
    (hs : ∀ r ∈ s.refs, has r) : (step s).Inside has := by
  -- The cases are those of the step: what stands there is the end, a jump or an instruction.
  unfold step
  split
  · -- Without bits a single reference is the code that goes on.
    split
    · trivial
    · split
      · split
        · rename_i next rest hload
          exact hs next (by rw [(Slice.refs_of_loadRef hload).1]; simp)
        · trivial
      · trivial
  · split
    · trivial
    · rename_i format hfind
      dsimp only
      split
      · -- The instruction was found in the table, so it is formed as its format says.
        rename_i rest houtcome
        obtain ⟨hsuits, hrest⟩ := Opcode.Format.decode_yields format s rest houtcome
        exact ⟨⟨format, Opcode.Table.mem_of_find? hfind, rfl, hsuits⟩,
          Opcode.Format.decode_inside format s has below hs, fun r hr => hs r (hrest r hr)⟩
      · trivial

/-- So it is with the operands that were read before a step failed. -/
theorem step_failed_inside (s : Slice) (has : Cell → Prop)
    (below : ∀ c, has c → ∀ r ∈ c.refs, has r) (hs : ∀ r ∈ s.refs, has r) (e : DecodeError)
    (operands : List (Operand Cell)) (h : step s = .failed e operands) :
    ∀ o ∈ operands, o.Inside has := by
  -- Only an instruction that fails has operands; the other failures come before any is read.
  unfold step at h
  split at h
  · split at h
    · cases h
    · split at h
      · split at h
        · cases h
        · cases h
          exact nofun
      · cases h
        exact nofun
  · split at h
    · cases h
      exact nofun
    · rename_i format hfind
      dsimp only at h
      split at h
      · cases h
      · cases h
        exact Opcode.Format.decode_inside format s has below hs

/-- A code holds formed instructions only, and no cells but those reached from its slice. -/
private theorem scan_cases (s : Slice) (has : Cell → Prop)
    (below : ∀ c, has c → ∀ r ∈ c.refs, has r) (hs : ∀ r ∈ s.refs, has r) :
    ∀ i ∈ (scan s).instructions, i.Formed ∧ i.Inside has := by
  -- Induction along the scan: a code ends, jumps, has one more instruction or breaks off.
  fun_induction scan s with
  | case1 =>
    intro i hi
    cases hi
  | case2 s next h ih =>
    -- The jump leads to a reference of the slice, whose own references have the property too.
    have hnext := step_inside s has below hs
    rw [h] at hnext
    exact ih (by rw [Slice.refs_toSlice]; exact below next hnext)
  | case3 s i rest h scanned ih =>
    -- The instruction has it by its step, and the others by induction on the rest.
    have hstep := step_inside s has below hs
    rw [h] at hstep
    intro j hj
    rcases List.mem_cons.mp hj with rfl | hj
    · exact ⟨hstep.1, hstep.2.1⟩
    · exact ih hstep.2.2 j hj
  | case4 =>
    intro i hi
    cases hi

/-- What was read of the instruction at which a code breaks off holds no cells but those reached
    from its slice. -/
theorem scan_failure_inside (s : Slice) (has : Cell → Prop)
    (below : ∀ c, has c → ∀ r ∈ c.refs, has r) (hs : ∀ r ∈ s.refs, has r) (e : DecodeError)
    (operands : List (Operand Cell)) (h : (scan s).failure = some (e, operands)) :
    ∀ o ∈ operands, o.Inside has := by
  fun_induction scan s with
  | case1 => cases h
  | case2 s next hstep ih =>
    have hnext := step_inside s has below hs
    rw [hstep] at hnext
    exact ih (by rw [Slice.refs_toSlice]; exact below next hnext) h
  | case3 s i rest hstep scanned ih =>
    have hrest := step_inside s has below hs
    rw [hstep] at hrest
    exact ih hrest.2.2 h
  -- Here the code breaks off, with the operands of the step that failed.
  | case4 s e' operands' hstep =>
    cases h
    exact step_failed_inside s has below hs e operands hstep

/-- The cells that a code holds are reached from its slice. -/
theorem scan_inside (s : Slice) (has : Cell → Prop) (below : ∀ c, has c → ∀ r ∈ c.refs, has r)
    (hs : ∀ r ∈ s.refs, has r) : ∀ i ∈ (scan s).instructions, i.Inside has :=
  fun i hi => (scan_cases s has below hs i hi).2

/-- The instructions of a code are formed as the table says. -/
theorem scan_formed (s : Slice) : ∀ i ∈ (scan s).instructions, i.Formed :=
  fun i hi => (scan_cases s (fun _ => True) (fun _ _ _ _ => trivial) (fun _ _ => trivial) i hi).1

end Decode

end CellCode
