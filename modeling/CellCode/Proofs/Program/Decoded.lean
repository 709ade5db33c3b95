import CellCode.Listing.Token
import CellCode.Proofs.Program.Loading
import Mathlib.Data.List.TakeWhile

/-!
# Programs that were decoded

A program that a slice shows is made up of the table's instructions, with the operands that
their fields return, and holds no other cells than those below the slice. This is true of the
programs nested in it as well, because they are shown by slices of their own.

* `Slice.Decodes.of_contains`   nested programs are shown by slices
* `Slice.Decodes.cells`         the cells of a program
* `Slice.Decodes.printable`     operands stand in the order in which listings write them
-/

namespace CellCode

namespace Slice

/-- Every instruction of a program that a slice shows was decoded there. -/
theorem Decodes.instruction (s : Slice) (p : Program) (has : Cell → Prop)
    (below : ∀ c, has c → ∀ r ∈ c.refs, has r) (hs : ∀ r ∈ s.refs, has r) (h : s.Decodes p)
    (i : Program.Instruction) (hi : i ∈ p) :
    ∃ j, i.Is (fun body k => k.toSlice.Decodes body) j ∧ j.Formed ∧ j.Inside has := by
  obtain ⟨is, his, hp⟩ := (s.decodes_iff p).mp h
  obtain ⟨_, rfl⟩ := (Decode.instructions?_eq_some s is).mp his
  obtain ⟨j, hj, hij⟩ := forall₂_mem_left p _ hp i hi
  exact ⟨j, hij, Decode.scan_formed s j hj, Decode.scan_inside s has below hs j hj⟩

/-- A program nested in one that a slice shows is shown by a slice. -/
theorem Decodes.of_contains (s : Slice) (p q : Program) (has : Cell → Prop)
    (below : ∀ c, has c → ∀ r ∈ c.refs, has r) (hs : ∀ r ∈ s.refs, has r) (h : s.Decodes p)
    (hq : p.Contains q) : ∃ t : Slice, t.Decodes q ∧ ∀ r ∈ t.refs, has r := by
  induction hq generalizing s with
  | self p => exact ⟨s, h, hs⟩
  | @inside p body q i hi hbody _ ih =>
    obtain ⟨j, hij, _, hinside⟩ := h.instruction s p has below hs i hi
    obtain ⟨o, ho, hcode⟩ := forall₂_mem_left _ _ hij.operands _ hbody
    cases hcode with
    | @code _ k source hdecodes =>
      have hk := hinside _ (List.mem_filter.mp ho).1
      exact ih k.toSlice (by rw [refs_toSlice]; exact hk.2) hdecodes

/-- The cells of a program are reached from the slice that shows it. -/
theorem Decodes.cells (s : Slice) (p q : Program) (has : Cell → Prop)
    (below : ∀ c, has c → ∀ r ∈ c.refs, has r) (hs : ∀ r ∈ s.refs, has r) (h : s.Decodes p)
    (hq : p.Contains q) (i : Program.Instruction) (hi : i ∈ q) (c : Cell)
    (hc : .cell c ∈ i.operands) : has c := by
  obtain ⟨t, ht, hrefs⟩ := h.of_contains s p q has below hs hq
  obtain ⟨j, hij, _, hinside⟩ := ht.instruction t q has below hrefs i hi
  obtain ⟨o, ho, hcell⟩ := forall₂_mem_left _ _ hij.operands _ hc
  cases hcell with
  | cell c => exact hinside _ (List.mem_filter.mp ho).1

end Slice

/-! ## Operands in order -/

namespace Program

/-- Operands that are written behind the mnemonic; registers are numbered from zero. -/
def Operand.IsInline : Program.Operand → Prop
  | .integer _ => True
  | .stack i => 0 ≤ i
  | .control i => 0 ≤ i
  | .bits _ => True
  | .cell _ => False
  | .code _ => False

/-- The instruction can be written: a name of the right characters, and first the operands
    that are written behind it, then cells, then code. -/
structure Instruction.Printable (i : Program.Instruction) : Prop where
  name : ∃ c cs, i.name.toList = c :: cs ∧ Listing.startsName c ∧
    ∀ d ∈ cs, Listing.continuesName d
  operands : ∃ (plain : List Program.Operand) (cells : List Cell) (bodies : List Program),
    i.operands = plain ++ (cells.map .cell ++ bodies.map .code) ∧ ∀ o ∈ plain, o.IsInline

end Program

namespace Field

/-- Fields of operands that are written behind the mnemonic. -/
private def isInline : Field → Bool
  | stack _ => true
  | control _ => true
  | unsigned _ _ => true
  | signed _ => true
  | tiny => true
  | shortSlice => true
  | _ => false

private def isCode : Field → Bool
  | code => true
  | inlineCode => true
  | longInlineCode => true
  | _ => false

/-- What a field can return, as an operand of a program. -/
private def Fits (field : Field) (p : Program.Operand) : Prop :=
  (field.isInline → p.IsInline) ∧ (field = cell → ∃ c, p = .cell c) ∧
    (field.isCode → ∃ body, p = .code body)

private theorem fits_of_suits {same : Program → Cell → Prop} (field : Field) (o : Operand Cell)
    (p : Program.Operand) (h : field.Suits o) (hp : p.Is same o) : field.Fits p := by
  obtain ⟨taken, hyields⟩ := h
  cases hyields <;> cases hp <;>
    simp [Fits, isInline, isCode, Program.Operand.IsInline]

end Field

/-- The operands of all instructions stand in order: those behind the mnemonic first, then
    cells, then code. -/
private theorem instructions_fields_ordered : ∀ h ∈ Opcode.instructions,
    ((h.fields.dropWhile Field.isInline).dropWhile (· == .cell)).all Field.isCode := by
  decide +kernel

theorem instructions_named : ∀ h ∈ Opcode.instructions,
    ∃ c ∈ h.name.toList.head?, Listing.startsName c ∧
      ∀ d ∈ h.name.toList.tail, Listing.continuesName d := by
  have hall : Opcode.instructions.all fun h => h.name.toList.head?.any Listing.startsName &&
      h.name.toList.tail.all Listing.continuesName := by
    decide +kernel
  intro h hmem
  obtain ⟨hfirst, hrest⟩ := (Bool.and_eq_true _ _).mp (List.all_eq_true.mp hall h hmem)
  obtain ⟨c, hc, hstarts⟩ := (Option.any_eq_true _ _).mp hfirst
  exact ⟨c, hc, hstarts, List.all_eq_true.mp hrest⟩

/-- A list whose members are all images is the image of a list. -/
private theorem exists_map_eq {α β : Type} (f : α → β) (bs : List β) (h : ∀ b ∈ bs, ∃ a, b = f a) :
    ∃ as : List α, bs = as.map f := by
  induction bs with
  | nil => exact ⟨[], rfl⟩
  | cons b bs ih =>
    obtain ⟨a, rfl⟩ := h b (by simp)
    obtain ⟨as, rfl⟩ := ih (fun b hb => h b (by simp [hb]))
    exact ⟨a :: as, rfl⟩

/-- Decoded operands are not marks, so each of them belongs to one of the instruction. -/
theorem Instruction.Formed.operands {same : Program → Cell → Prop}
    {rel : Field → Program.Operand → Prop}
    (hrel : ∀ field o p, field.Suits o → Program.Operand.Is same p o → rel field p)
    (j : Instruction Cell) (i : Program.Instruction) (h : Opcode.Format)
    (hsuits : List.Forall₂ Field.Suits h.fields j.operands) (hij : i.Is same j) :
    List.Forall₂ rel h.fields i.operands := by
  have hplain : j.operands.filter (!·.isMarker) = j.operands := by
    refine List.filter_eq_self.mpr ?_
    intro o ho
    obtain ⟨field, _, taken, hyields⟩ := forall₂_mem_right _ _ hsuits o ho
    cases hyields <;> rfl
  exact forall₂_comp hrel _ _ _ hsuits (hplain ▸ hij.operands)

/-- A decoded instruction can be written. -/
theorem Instruction.Formed.printable {same : Program → Cell → Prop} (j : Instruction Cell)
    (i : Program.Instruction) (hformed : j.Formed) (hij : i.Is same j) : i.Printable := by
  obtain ⟨h, hmem, hname, hsuits⟩ := hformed
  have hfits : List.Forall₂ Field.Fits h.fields i.operands :=
    Instruction.Formed.operands Field.fits_of_suits j i h hsuits hij
  refine ⟨?_, ?_⟩
  · obtain ⟨c, hc, hstart, hrest⟩ := instructions_named h hmem
    rw [hij.name_eq, hname]
    exact ⟨c, h.name.toList.tail, (List.cons_head?_tail hc).symm, hstart, hrest⟩
  · -- The fields fall into those behind the mnemonic, those of cells and those of code.
    have hordered := instructions_fields_ordered h hmem
    generalize hrest : h.fields.dropWhile Field.isInline = rest at hordered
    have hsplit : h.fields = h.fields.takeWhile Field.isInline ++
        (rest.takeWhile (· == .cell) ++ rest.dropWhile (· == .cell)) := by
      rw [List.takeWhile_append_dropWhile, ← hrest, List.takeWhile_append_dropWhile]
    rw [hsplit] at hfits
    obtain ⟨plain, others, hinline, hothers, heq⟩ := forall₂_append_left _ _ _ hfits
    obtain ⟨cells, codes, hcells, hcodes, rfl⟩ := forall₂_append_left _ _ _ hothers
    have hcell : ∀ o ∈ cells, ∃ c, o = .cell c := by
      intro o ho
      obtain ⟨field, hfield, hfit⟩ := forall₂_mem_right _ _ hcells o ho
      have hfield := List.mem_takeWhile_imp (p := (· == Field.cell)) hfield
      exact hfit.2.1 (eq_of_beq hfield)
    have hcode : ∀ o ∈ codes, ∃ body, o = .code body := by
      intro o ho
      obtain ⟨field, hfield, hfit⟩ := forall₂_mem_right _ _ hcodes o ho
      exact hfit.2.2 (List.all_eq_true.mp hordered field hfield)
    obtain ⟨cells, rfl⟩ := exists_map_eq _ cells hcell
    obtain ⟨bodies, rfl⟩ := exists_map_eq _ codes hcode
    refine ⟨plain, cells, bodies, heq, ?_⟩
    intro o ho
    obtain ⟨field, hfield, hfit⟩ := forall₂_mem_right _ _ hinline o ho
    exact hfit.1 (List.mem_takeWhile_imp hfield)

/-- The instructions of a program that a slice shows can be written. -/
theorem Slice.Decodes.printable (s : Slice) (p q : Program) (h : s.Decodes p)
    (hq : p.Contains q) (i : Program.Instruction) (hi : i ∈ q) : i.Printable := by
  obtain ⟨t, ht, _⟩ := h.of_contains s p q (fun _ => True) (fun _ _ _ _ => trivial)
    (fun _ _ => trivial) hq
  obtain ⟨j, hij, hformed, _⟩ := ht.instruction t q (fun _ => True) (fun _ _ _ _ => trivial)
    (fun _ _ => trivial) i hi
  exact hformed.printable j i hij

end CellCode
