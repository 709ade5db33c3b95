import CellCode.Proofs.Listing.InStep
import CellCode.Proofs.Packing.Rows

/-!
# Where code stands in an instruction

Code that is an operand stands in the cell of a reference, or in the bits and references of the
instruction itself, behind the counts of its bytes and references. Where that is follows from the
field and from what is encoded before the operand.

* `Field.codeAt`                where the code of an operand stands
* `Field.Encodes.code_stands`   one operand: the code is shown there, and recorded there
* `CodeAt`                      the code of the operands of an instruction
* `Opcode.Format.encode_nests`   this is what an instruction shows and records
-/

namespace CellCode

namespace Slice

/-- The window as large as a builder's content that begins so many bits and references further
    on. -/
def window (s : Slice) (bits refs : Nat) (b : Builder) : Slice where
  cell := s.cell
  bitPos := s.bitPos + bits
  bitEnd := s.bitPos + bits + b.bits.length
  refPos := s.refPos + refs
  refEnd := s.refPos + refs + b.refs.length

/-- The window over a part of what is shown. -/
theorem Shows.window {s : Slice} {before after : Bits} {refsBefore refsAfter : List Cell}
    {b : Builder}
    (h : s.Shows (before ++ b.bits ++ after) (refsBefore ++ b.refs ++ refsAfter)) :
    (s.window before.length refsBefore.length b).Shows b.bits b.refs := by
  -- Behind what comes before, `behind` shows the part and what follows it; the window cuts off the
  -- rest.
  rw [List.append_assoc, List.append_assoc] at h
  obtain ⟨hv, hdata, hrefs⟩ := h.behind
  have hbits := congrArg List.length hdata
  have hcount := congrArg List.length hrefs
  -- What is shown has at least as many bits and references as the window asks for.
  simp only [Slice.data, Slice.refs, Slice.behind, List.length_take, List.length_drop,
    List.length_append] at hbits hcount
  have hpos := hv.bitPos_le
  have hend := hv.bitEnd_le
  have hrefPos := hv.refPos_le
  have hrefEnd := hv.refEnd_le
  simp only [Slice.behind] at hpos hend hrefPos hrefEnd
  refine ⟨⟨?_, ?_, ?_, ?_⟩, ?_, ?_⟩
  · -- The four bounds of the window inside the cell.
    show s.bitPos + before.length ≤ s.bitPos + before.length + b.bits.length
    omega
  · show s.bitPos + before.length + b.bits.length ≤ s.cell.bits.length
    omega
  · show s.refPos + refsBefore.length ≤ s.refPos + refsBefore.length + b.refs.length
    omega
  · show s.refPos + refsBefore.length + b.refs.length ≤ s.cell.refs.length
    omega
  · -- The bits of the window are the first ones of what is shown behind.
    have htake := congrArg (List.take b.bits.length) hdata
    rw [List.take_left, Slice.data, List.take_take,
      Nat.min_eq_left (by simp only [Slice.behind]; omega)] at htake
    simp only [Slice.data, Slice.window, Nat.add_sub_cancel_left]
    exact htake
  · -- So are the references.
    have htake := congrArg (List.take b.refs.length) hrefs
    rw [List.take_left, Slice.refs, List.take_take,
      Nat.min_eq_left (by simp only [Slice.behind]; omega)] at htake
    simp only [Slice.refs, Slice.window, Nat.add_sub_cancel_left]
    exact htake

end Slice

/-- What is recorded depends on the place of the slice and on the references that belong to
    children. -/
theorem Debug.Node.records_congr (node : Debug.Node) (s t : Slice) (hcell : s.cell = t.cell)
    (hpos : s.bitPos = t.bitPos) (hrefs : ∀ i < node.children.length, s.refs[i]? = t.refs[i]?)
    (c : Cell) (o : Int) (p : Debug.Position) :
    node.Records s c o p ↔ node.Records t c o p := by
  -- The own positions are those of the same place. A child stands at one of the references on which
  -- both agree.
  rw [records_iff, records_iff node t, hcell, hpos]
  apply or_congr_right
  constructor
  · intro h
    obtain ⟨i, child, r, child_at, ref_at, inside⟩ := h
    have hi := (List.getElem?_eq_some_iff.mp child_at).1
    exact ⟨i, child, r, child_at, by rw [← hrefs i hi, ref_at], inside⟩
  · intro h
    obtain ⟨i, child, r, child_at, ref_at, inside⟩ := h
    have hi := (List.getElem?_eq_some_iff.mp child_at).1
    exact ⟨i, child, r, child_at, by rw [hrefs i hi, ref_at], inside⟩

/-! ## One operand -/

namespace Field

/-- Where the code of an operand stands, in an instruction at the slice, behind what is encoded
    before the operand. -/
def codeAt (field : Field) (s : Slice) (before : Encoding) (b : Builder) : Option Slice :=
  match field with
  | code => s.refs[before.refs.length]?.map Cell.toSlice
  | cell => s.refs[before.refs.length]?.map Cell.toSlice
  | inlineCode => some (s.window (before.bits.length + 4) before.refs.length b)
  | longInlineCode => some (s.window (before.bits.length + 9) before.refs.length b)
  | _ => none

/-- An operand adds behind what is there. -/
theorem Encodes.extends {e e' : Encoding} {field : Field} {o : Operand Fragment}
    -- References are added behind the references, and inline code behind its count.
    (h : Encodes e field o e') :
    ∃ bits refs, e'.bits = e.bits ++ bits ∧ e'.refs = e.refs ++ refs := by
  cases h with
  | code f source => exact ⟨[], _, by simp [Encoding.addRef], rfl⟩
  | cell f source => exact ⟨[], _, by simp [Encoding.addRef], rfl⟩
  | inlineCode f source => exact ⟨_, _, List.append_assoc .., rfl⟩
  | longInlineCode f source => exact ⟨_, _, List.append_assoc .., rfl⟩
  | _ => exact ⟨_, [], rfl, by simp [Encoding.addBits]⟩

/-- An operand that is no code records nothing. -/
theorem Encodes.dbg_eq {e e' : Encoding} {field : Field} {o : Operand Fragment}
    (h : Encodes e field o e') (hcode : o.body? = none) : e'.dbg = e.dbg := by
  -- Only code has records of its own.
  cases h with
  | code f source => cases hcode
  | cell f source => cases hcode
  | inlineCode f source => cases hcode
  | longInlineCode f source => cases hcode
  | _ => rfl

section Code

variable {e : Encoding} {f : Fragment} {s : Slice} {more : Bits} {moreRefs : List Cell}

/-- What holds of code that was added at a place of an instruction: it is shown there, in a cell
    of the tree, and what it records is recorded there. -/
structure CodeStands (e e' : Encoding) (f : Fragment) (s u : Slice) : Prop where
  shows : u.Shows f.builder.bits f.builder.refs
  reaches : s.cell.Reaches u.cell
  records : ∀ c o p, e'.dbg.Records s c o p ↔ e.dbg.Records s c o p ∨ f.dbg.Records u c o p

/-- Code in a reference stands in the whole cell that is referred to. -/
private theorem codeStands_addRef (hpaired : e.dbg.children.length = e.refs.length)
    (hs : s.Shows ((e.addRef f).bits ++ more) ((e.addRef f).refs ++ moreRefs)) :
    s.refs[e.refs.length]? = some f.builder.cell ∧
      CodeStands e (e.addRef f) f s f.builder.cell.toSlice := by
  -- The reference is the last one that the instruction has so far.
  have href : s.refs[e.refs.length]? = some f.builder.cell := by
    rw [hs.refs_eq]
    simp [Encoding.addRef]
  refine ⟨href, Slice.shows_cell f.builder, ?_, ?_⟩
  · exact s.reaches_of_mem_refs _ (List.mem_of_getElem? href)
  · intro c o p
    show (e.dbg.append f.dbg).Records s c o p ↔ _
    -- Children and references are in step, so the new child is that of the new reference.
    rw [Fragment.records_append, hpaired, href]
    apply or_congr_right
    constructor
    · intro h
      obtain ⟨r, hr, h⟩ := h
      cases hr
      exact h
    · intro h
      exact ⟨_, rfl, h⟩

/-- Inline code stands in a window behind its header. -/
private theorem codeStands_addInline (header : Bits) (n : Nat) (hn : header.length = n)
    (hpaired : e.dbg.children.length = e.refs.length)
    (hstep : f.dbg.children.length = f.builder.refs.length)
    (hs : s.Shows (((e.addBits header).addInline f).bits ++ more)
      (((e.addBits header).addInline f).refs ++ moreRefs)) :
    CodeStands e ((e.addBits header).addInline f) f s
      (s.window (e.bits.length + n) e.refs.length f.builder) := by
  subst hn
  rw [← List.length_append]
  have hwindow : (s.window (e.bits ++ header).length e.refs.length f.builder).Shows
      f.builder.bits f.builder.refs := hs.window
  refine ⟨hwindow, .self _, ?_⟩
  intro c o p
  -- The records of the code are inlined at the place where the window starts.
  show (e.dbg.inlined (e.bits ++ header).length f.dbg).Records s c o p ↔ _
  have hinlined := Fragment.records_inlined s c o p e.dbg f.dbg ⟨e.bits ++ header, e.refs⟩ hpaired
  rw [hinlined]
  apply or_congr_right
  -- The window ends with the code, and what is behind the header goes on.
  apply Debug.Node.records_congr
  · rfl
  · rfl
  · intro i hi
    rw [hwindow.refs_eq, Slice.refs_behind, hs.refs_eq]
    show ((e.refs ++ f.builder.refs ++ moreRefs).drop e.refs.length)[i]? = f.builder.refs[i]?
    rw [List.append_assoc, List.drop_left, List.getElem?_append_left (by omega)]

/-- Code that is added to an instruction stands where its field says. -/
theorem Encodes.code_stands {e' : Encoding} {field : Field} {source : Option Cell}
    (h : Encodes e field (.code f source) e')
    (hpaired : e.dbg.children.length = e.refs.length) (hadmits : field.Admits (.code f source))
    (hs : s.Shows (e'.bits ++ more) (e'.refs ++ moreRefs)) :
    ∃ u, field.codeAt s e f.builder = some u ∧ CodeStands e e' f s u := by
  -- Code in references is shown from the front of its cell, and inline code behind a count of four
  -- or nine bits.
  cases h with
  | code f source =>
    obtain ⟨href, hstands⟩ := codeStands_addRef hpaired hs
    exact ⟨_, by rw [codeAt, href]; rfl, hstands⟩
  | cell f source =>
    obtain ⟨href, hstands⟩ := codeStands_addRef hpaired hs
    exact ⟨_, by rw [codeAt, href]; rfl, hstands⟩
  | inlineCode f source =>
    exact ⟨_, rfl, codeStands_addInline _ 4 (by simp) hpaired (hadmits.2 nofun).length_eq hs⟩
  | longInlineCode f source =>
    exact ⟨_, rfl, codeStands_addInline _ 9 (by simp) hpaired (hadmits.2 nofun).length_eq hs⟩

end Code

/-- What an operand adds to the records: those of its code, where that stands. -/
theorem Encodes.records {e e' : Encoding} {field : Field} {operand : Operand Fragment} {s : Slice}
    {more : Bits} {moreRefs : List Cell} (h : Encodes e field operand e')
    (hpaired : e.dbg.children.length = e.refs.length) (hadmits : field.Admits operand)
    (hs : s.Shows (e'.bits ++ more) (e'.refs ++ moreRefs)) (c : Cell) (o : Int)
    (p : Debug.Position) :
    e'.dbg.Records s c o p ↔ e.dbg.Records s c o p ∨ ∃ f source u,
      operand = .code f source ∧ field.codeAt s e f.builder = some u ∧ f.dbg.Records u c o p := by
  -- An operand without code leaves the debug node as it is.
  cases hbody : operand.body? with
  | none =>
    rw [h.dbg_eq hbody]
    refine (or_iff_left ?_).symm
    intro hcode
    obtain ⟨f, source, u, rfl, _⟩ := hcode
    cases hbody
  | some f =>
    -- Only code has a body.
    obtain ⟨source, rfl⟩ : ∃ source, operand = .code f source := by
      cases operand with
      | code body source =>
        cases hbody
        exact ⟨source, rfl⟩
      | _ => cases hbody
    obtain ⟨u, hu, hstands⟩ := h.code_stands hpaired hadmits hs
    rw [hstands.records]
    apply or_congr_right
    constructor
    · intro hrecords
      exact ⟨f, source, u, rfl, hu, hrecords⟩
    · intro hcode
      -- The field has one place for the code, so both are the same.
      obtain ⟨f', source', u', heq, hu', hrecords⟩ := hcode
      cases heq
      rw [hu] at hu'
      cases hu'
      exact hrecords

end Field

/-! ## All operands -/

/-- Operand `i` is code, and it stands at a slice, in an instruction at `s` that has these operands
    behind what is encoded so far. -/
inductive CodeAt (s : Slice) :
    Encoding → List (Field × Operand Fragment) → (i : Nat) → Fragment → Slice → Prop
  | here {e : Encoding} {field : Field} {f : Fragment} {source : Option Cell}
      {others : List (Field × Operand Fragment)} {u : Slice}
      (code_at : field.codeAt s e f.builder = some u) :
      CodeAt s e ((field, .code f source) :: others) 0 f u
  | there {e e' : Encoding} {field : Field} {operand : Operand Fragment}
      {others : List (Field × Operand Fragment)} {i : Nat} {f : Fragment} {u : Slice}
      (encoded : field.encode operand e = .ok e') (behind : CodeAt s e' others i f u) :
      CodeAt s e ((field, operand) :: others) (i + 1) f u

/-- The code is that of the operand. -/
theorem CodeAt.operand {s : Slice} {e : Encoding} {pairs : List (Field × Operand Fragment)}
    {i : Nat} {f : Fragment} {u : Slice} (h : CodeAt s e pairs i f u) :
    ∃ field source, pairs[i]? = some (field, .code f source) := by
  -- Induction on the position of the operand.
  induction h with
  | here => exact ⟨_, _, rfl⟩
  | there _ _ ih => exact ih

section Operands

variable {s : Slice} {e e' : Encoding} {field : Field} {operand : Operand Fragment}
  {pairs : List (Field × Operand Fragment)} {more : Bits} {moreRefs : List Cell}

/-- Operands add behind what is there. -/
theorem extends_of_foldlM (h : pairs.foldlM (fun e (field, o) => field.encode o e) e = .ok e') :
    ∃ bits refs, e'.bits = e.bits ++ bits ∧ e'.refs = e.refs ++ refs := by
  -- Induction on the operands.
  induction pairs generalizing e with
  | nil =>
    cases h
    exact ⟨[], [], by simp, by simp⟩
  | cons pair pairs ih =>
    obtain ⟨e₁, he₁, hrest⟩ := (foldlM_cons_eq_ok _ _ _ _ _).mp h
    obtain ⟨bits, refs, hbits, hrefs⟩ := (Field.encodes_of_encode _ _ _ _ he₁).extends
    obtain ⟨bits', refs', hbits', hrefs'⟩ := ih hrest
    exact ⟨bits ++ bits', refs ++ refs', by rw [hbits', hbits, List.append_assoc],
      by rw [hrefs', hrefs, List.append_assoc]⟩

/-- What is encoded of an instruction after one more operand: it is in step again, and shown
    where the instruction is. -/
theorem foldlM_encode_cons
    (h : ((field, operand) :: pairs).foldlM (fun e (field, o) => field.encode o e) e = .ok e')
    (he : e.InStep) (hadmits : field.Admits operand)
    (hs : s.Shows (e'.bits ++ more) (e'.refs ++ moreRefs)) :
    ∃ e₁ bits refs, field.encode operand e = .ok e₁ ∧ Field.Encodes e field operand e₁ ∧
      pairs.foldlM (fun e (field, o) => field.encode o e) e₁ = .ok e' ∧ e₁.InStep ∧
      s.Shows (e₁.bits ++ bits) (e₁.refs ++ refs) := by
  -- The operand is encoded first, and what the others add comes behind it.
  obtain ⟨e₁, he₁, hrest⟩ := (foldlM_cons_eq_ok _ _ _ _ _).mp h
  have hencodes := field.encodes_of_encode operand e e₁ he₁
  obtain ⟨bits, refs, hbits, hrefs⟩ := extends_of_foldlM hrest
  rw [hbits, hrefs, List.append_assoc, List.append_assoc] at hs
  exact ⟨e₁, _, _, he₁, hencodes, hrest, hencodes.inStep he hadmits, hs⟩

/-- Code of an operand is shown where it stands. -/
theorem CodeAt.stands {i : Nat} {f : Fragment} {u : Slice} (hcode : CodeAt s e pairs i f u)
    (h : pairs.foldlM (fun e (field, o) => field.encode o e) e = .ok e') (he : e.InStep)
    (hadmits : ∀ pair ∈ pairs, pair.1.Admits pair.2)
    (hs : s.Shows (e'.bits ++ more) (e'.refs ++ moreRefs)) :
    u.Shows f.builder.bits f.builder.refs ∧ s.cell.Reaches u.cell := by
  -- Induction on the position: the code of this operand, or of one behind it.
  induction hcode with
  | here code_at =>
    rw [List.forall_mem_cons] at hadmits
    obtain ⟨e₁, bits, refs, _, hencodes, _, _, hs⟩ := foldlM_encode_cons h he hadmits.1 hs
    obtain ⟨u, hu, hstands⟩ := hencodes.code_stands he.length_eq hadmits.1 hs
    -- The field determines where the code stands.
    rw [code_at] at hu
    cases hu
    exact ⟨hstands.shows, hstands.reaches⟩
  | there encoded _ ih =>
    rw [List.forall_mem_cons] at hadmits
    obtain ⟨e₁, _, _, he₁, _, hrest, hstep, _⟩ := foldlM_encode_cons h he hadmits.1 hs
    rw [encoded] at he₁
    cases he₁
    exact ih hrest hstep hadmits.2

/-- Every operand that is code stands somewhere. -/
theorem exists_codeAt {i : Nat} {f : Fragment} {source : Option Cell}
    (hi : pairs[i]? = some (field, .code f source))
    (h : pairs.foldlM (fun e (field, o) => field.encode o e) e = .ok e') (he : e.InStep)
    (hadmits : ∀ pair ∈ pairs, pair.1.Admits pair.2)
    (hs : s.Shows (e'.bits ++ more) (e'.refs ++ moreRefs)) : ∃ u, CodeAt s e pairs i f u := by
  -- Induction on the operands, for any position.
  induction pairs generalizing e i with
  | nil => cases hi
  | cons pair pairs ih =>
    rw [List.forall_mem_cons] at hadmits
    obtain ⟨e₁, bits, refs, he₁, hencodes, hrest, hstep, hs₁⟩ :=
      foldlM_encode_cons h he hadmits.1 hs
    cases i with
    | zero =>
      cases hi
      obtain ⟨u, hu, _⟩ := hencodes.code_stands he.length_eq hadmits.1 hs₁
      exact ⟨u, .here hu⟩
    | succ i =>
      obtain ⟨u, hu⟩ := ih hi hrest hstep hadmits.2
      exact ⟨u, .there he₁ hu⟩

/-- Operands add the records of their code, where it stands. -/
theorem records_of_foldlM (h : pairs.foldlM (fun e (field, o) => field.encode o e) e = .ok e')
    (he : e.InStep) (hadmits : ∀ pair ∈ pairs, pair.1.Admits pair.2)
    (hs : s.Shows (e'.bits ++ more) (e'.refs ++ moreRefs)) (c : Cell) (o : Int)
    (p : Debug.Position) :
    e'.dbg.Records s c o p ↔ e.dbg.Records s c o p ∨
      ∃ i f u, CodeAt s e pairs i f u ∧ f.dbg.Records u c o p := by
  -- Induction on the operands: this one adds the records of its code, the others those of theirs.
  induction pairs generalizing e with
  -- Without operands there is no code.
  | nil =>
    cases h
    refine (or_iff_left ?_).symm
    intro hcode
    obtain ⟨_, _, _, hcode, _⟩ := hcode
    cases hcode
  | cons pair pairs ih =>
    obtain ⟨field, operand⟩ := pair
    rw [List.forall_mem_cons] at hadmits
    obtain ⟨e₁, bits, refs, he₁, hencodes, hrest, hstep, hs₁⟩ :=
      foldlM_encode_cons h he hadmits.1 hs
    rw [ih hrest hstep hadmits.2, hencodes.records he.length_eq hadmits.1 hs₁, or_assoc]
    apply or_congr_right
    constructor
    · intro hcode
      -- The code of this operand stands here, and any other one behind it.
      rcases hcode with ⟨f, source, u, rfl, hu, hrecords⟩ | ⟨i, f, u, hu, hrecords⟩
      · exact ⟨0, f, u, .here hu, hrecords⟩
      · exact ⟨i + 1, f, u, .there he₁ hu, hrecords⟩
    · intro hcode
      obtain ⟨i, f, u, hu, hrecords⟩ := hcode
      cases hu with
      | here code_at => exact .inl ⟨f, _, u, rfl, code_at, hrecords⟩
      | there encoded behind =>
        rw [encoded] at he₁
        cases he₁
        exact .inr ⟨_, f, u, behind, hrecords⟩

end Operands

namespace Opcode.Format

/-- Operand `i` of an instruction at the slice `s` is code that stands at the slice `u`. -/
def CodeAt (format : Format) (operands : List (Operand Fragment)) (s : Slice) (i : Nat)
    (f : Fragment) (u : Slice) : Prop :=
  CellCode.CodeAt s ⟨format.opcode, [], .empty⟩ (format.fields.zip operands) i f u

/-- The code of the operands stands in an instruction at the slice, and the instruction records
    what this code does. -/
structure NestsAt (format : Format) (operands : List (Operand Fragment)) (e : Encoding)
    (s : Slice) : Prop where
  shown : ∀ i f u, format.CodeAt operands s i f u →
    u.Shows f.builder.bits f.builder.refs ∧ s.cell.Reaches u.cell
  found : ∀ (i : Nat) f source, operands[i]? = some (.code f source) →
    ∃ u, format.CodeAt operands s i f u
  records : ∀ c o p, e.dbg.Records s c o p ↔
    ∃ i f u, format.CodeAt operands s i f u ∧ f.dbg.Records u c o p

/-- Instructions are encoded like this. -/
theorem encode_nests (format : Format) (operands : List (Operand Fragment)) (e : Encoding)
    (s : Slice) (more : Bits) (moreRefs : List Cell) (h : format.encode operands = .ok e)
    (hadmits : List.Forall₂ Field.Admits format.fields operands)
    (hs : s.Shows (e.bits ++ more) (e.refs ++ moreRefs)) : format.NestsAt operands e s := by
  unfold encode at h
  -- There are as many operands as fields, so the check of their number passes.
  rw [if_neg (by rw [hadmits.length_eq]; simp)] at h
  have hpairs : ∀ pair ∈ format.fields.zip operands, pair.1.Admits pair.2 :=
    fun _ hpair => List.forall₂_zip hadmits hpair
  constructor
  · intro i f u hcode
    exact hcode.stands h .nil hpairs hs
  · -- The operand is code, so it has a field, and code in a field stands somewhere.
    intro i f source hi
    have hlt := (List.getElem?_eq_some_iff.mp hi).1
    rw [← hadmits.length_eq] at hlt
    have hfield : format.fields[i]? = some format.fields[i] := List.getElem?_eq_getElem hlt
    exact exists_codeAt (List.getElem?_zip_eq_some.mpr ⟨hfield, hi⟩) h .nil hpairs hs
  · -- The opcode alone records nothing.
    intro c o p
    rw [records_of_foldlM h .nil hpairs hs]
    exact or_iff_right (Debug.Node.not_records_empty s c o p)

end Opcode.Format

end CellCode
