import CellCode.Proofs.Listing.Acceptance

/-!
# The parts of a listing

Code and cells that are written out are the parts of a listing, each assembled into a fragment of
its own. A part holds other parts: the operands and blocks of its instructions, the code of
dictionaries, and cells inside a cell. What is shown of a part from the parts that it holds is
shown of all parts.

* `Part.assemble`            the fragment of a part
* `assembleCell_eq`          a cell that is written out is assembled as a part
* `assembleItem_terms`       blocks are assembled like operands
* `Part.induct`              induction over parts
* `allFragments_of_terms`    the fragments of arguments are those of parts
-/

namespace CellCode.Listing

/-- A part of a listing with a fragment of its own. -/
inductive Part
  /-- Code. -/
  | code (items : List Item)
  /-- Raw bits, then cells that become references. -/
  | raw (line : Nat) (blobs : List Blob) (children : List CellTerm)

/-- The part that a cell is. Raw bits before code are items like the others. -/
def CellTerm.part : CellTerm → Part
  | raw line blobs children => .raw line blobs children
  | code _ blobs items => .code (blobs.map .blob ++ items)

/-- The operands of an instruction, and its blocks as operands that are written as cells. -/
def allTerms (line : Nat) (terms : List Term) (blocks : List (List Item)) : List Term :=
  terms ++ blocks.map fun block => .cell (.code line [] block)

/-- An operand has a part in it. -/
inductive Term.Has : Term → Part → Prop
  | cell (t : CellTerm) : Has (.cell t) t.part
  | entry (line : Nat) (entries : List (Int × List Item)) (entry : Int × List Item)
      (mem : entry ∈ entries) : Has (.dict line entries) (.code entry.2)

/-- An item has a part in it. -/
inductive Item.Has : Item → Part → Prop
  | intro (line : Nat) (name : String) (terms : List Term) (blocks : List (List Item)) (t : Term)
      (part : Part) (mem : t ∈ allTerms line terms blocks) (has : t.Has part) :
      Has (.instruction line name terms blocks) part

/-! ## Induction -/

/-- The property is one that a part has when the parts in it have it. -/
private structure Part.Inherits (motive : Part → Prop) : Prop where
  code : ∀ items, (∀ item ∈ items, ∀ part, item.Has part → motive part) → motive (.code items)
  raw : ∀ line blobs children, (∀ t ∈ children, motive t.part) → motive (.raw line blobs children)

mutual

/-- The parts in an item have the property. -/
private theorem Part.Inherits.item {motive : Part → Prop} (hmotive : Part.Inherits motive)
    (item : Item) (part : Part) (h : item.Has part) : motive part := by
  match item, h with
  | .instruction line name terms blocks, .intro _ _ _ _ t _ hmem has =>
    rcases List.mem_append.mp hmem with hmem | hmem
    · exact hmotive.term t part has
    · -- A block is a code of its own.
      obtain ⟨block, hblock, rfl⟩ := List.mem_map.mp hmem
      cases has
      -- A block is smaller than its instruction, and so is an item in it.
      refine hmotive.code _ ?_
      intro item hitem part has
      exact hmotive.item item part has
termination_by sizeOf item
decreasing_by
  · have hsize := List.sizeOf_lt_of_mem hmem
    simp only [Item.instruction.sizeOf_spec]
    omega
  · have hsize := List.sizeOf_lt_of_mem hitem
    have hsize' := List.sizeOf_lt_of_mem hblock
    simp only [List.map_nil, List.nil_append] at hsize
    simp only [Item.instruction.sizeOf_spec]
    omega

/-- So have the parts in an operand. -/
private theorem Part.Inherits.term {motive : Part → Prop} (hmotive : Part.Inherits motive)
    (t : Term) (part : Part) (h : t.Has part) : motive part := by
  match t, h with
  | .cell c, .cell _ => exact hmotive.cellTerm c
  | .dict line entries, .entry _ _ entry hentry =>
    -- The code of an entry is smaller than the dictionary.
    refine hmotive.code _ ?_
    intro item hitem part has
    exact hmotive.item item part has
termination_by sizeOf t
decreasing_by
  · simp only [Term.cell.sizeOf_spec]
    omega
  · have hsize := List.sizeOf_lt_of_mem hitem
    have hsize' := List.sizeOf_lt_of_mem hentry
    obtain ⟨key, items⟩ := entry
    simp only [Term.dict.sizeOf_spec, Prod.mk.sizeOf_spec] at *
    omega

/-- So has the part that a cell is. -/
private theorem Part.Inherits.cellTerm {motive : Part → Prop} (hmotive : Part.Inherits motive)
    (c : CellTerm) : motive c.part := by
  match c with
  | .raw line blobs children =>
    refine hmotive.raw line blobs children ?_
    -- A child is smaller than the cell that holds it.
    intro t ht
    exact hmotive.cellTerm t
  | .code line blobs items =>
    refine hmotive.code _ ?_
    intro item hitem part has
    rcases List.mem_append.mp hitem with hitem | hitem
    · -- Raw bits have no parts in them.
      obtain ⟨blob, _, rfl⟩ := List.mem_map.mp hitem
      cases has
    · exact hmotive.item item part has
termination_by sizeOf c
decreasing_by
  · have hsize := List.sizeOf_lt_of_mem ht
    simp only [CellTerm.raw.sizeOf_spec]
    omega
  · have hsize := List.sizeOf_lt_of_mem hitem
    simp only [CellTerm.code.sizeOf_spec]
    omega

end

/-- What is shown of a part from the parts in it holds of all parts. -/
theorem Part.induct (motive : Part → Prop)
    (hcode : ∀ items, (∀ item ∈ items, ∀ part, item.Has part → motive part) →
      motive (.code items))
    (hraw : ∀ line blobs children, (∀ t ∈ children, motive t.part) →
      motive (.raw line blobs children)) (part : Part) : motive part := by
  -- Items and terms have been dealt with, so both kinds of parts are.
  have hmotive : Part.Inherits motive := ⟨hcode, hraw⟩
  cases part with
  | code items => exact hcode items fun item _ => hmotive.item item
  | raw line blobs children => exact hraw line blobs children fun t _ => hmotive.cellTerm t

/-! ## Assembling -/

variable (file : String)

/-- The fragment that a part is assembled into. -/
def Part.assemble : Part → Except AssembleError Fragment
  | code items => assembleItems file items >>= pack
  | raw line blobs children => do
    let blobs ← blobs.mapM (assembleBlob file)
    buildRaw line blobs (← assembleCells file children)

/-- Items are assembled one by one. -/
theorem assembleItems_eq_mapM (items : List Item) :
    assembleItems file items = items.mapM (assembleItem file) :=
  inOrder_eq_mapM _ _ (by rw [assembleItems]; rfl) (fun _ _ => by rw [assembleItems]; rfl) items

theorem assembleTerms_eq_mapM (terms : List Term) :
    assembleTerms file terms = terms.mapM (assembleTerm file) :=
  inOrder_eq_mapM _ _ (by rw [assembleTerms]; rfl) (fun _ _ => by rw [assembleTerms]; rfl) terms

theorem assembleCells_eq_mapM (cells : List CellTerm) :
    assembleCells file cells = cells.mapM (assembleCell file) :=
  inOrder_eq_mapM _ _ (by rw [assembleCells]; rfl) (fun _ _ => by rw [assembleCells]; rfl) cells

theorem assembleEntries_eq_mapM (entries : List (Int × List Item)) :
    assembleEntries file entries = entries.mapM (assembleEntry file) :=
  inOrder_eq_mapM _ _ (by rw [assembleEntries]; rfl) (fun _ _ => by rw [assembleEntries]; rfl)
    entries

theorem assembleBlocks_eq_mapM (blocks : List (List Item)) :
    assembleBlocks file blocks = blocks.mapM fun items => assembleItems file items >>= pack :=
  inOrder_eq_mapM _ _ (by rw [assembleBlocks]; rfl)
    (fun _ _ => by rw [assembleBlocks]; simp only [bind_assoc]; rfl) blocks

/-- Raw bits are assembled as items that are raw bits. -/
theorem assembleItems_blobs (blobs : List Blob) :
    assembleItems file (blobs.map .blob) =
      List.map (fun (bits, position) => Command.blob bits position) <$>
        blobs.mapM (assembleBlob file) := by
  rw [assembleItems_eq_mapM, List.mapM_map, ← mapM_map_result]
  congr 1

/-- A cell that is written out is assembled as the part that it is. -/
theorem assembleCell_eq (t : CellTerm) : assembleCell file t = t.part.assemble file := by
  cases t with
  | raw line blobs children => rw [assembleCell]; rfl
  -- The raw bits in front of the code are items like the others, so both are assembled in a row.
  | code line blobs items =>
    rw [assembleCell, CellTerm.part, Part.assemble, assembleItems_eq_mapM, assembleItems_eq_mapM,
      List.mapM_append, ← assembleItems_eq_mapM file (blobs.map .blob), assembleItems_blobs]
    cases blobs.mapM (assembleBlob file) with
    | error e => rfl
    | ok raw => cases items.mapM (assembleItem file) <;> rfl

/-- Raw bits and children are assembled, and what they make fits. -/
theorem Part.assemble_raw_eq_ok (line : Nat) (blobs : List Blob) (children : List CellTerm)
    (f : Fragment) :
    (Part.raw line blobs children).assemble file = .ok f ↔ ∃ raw fragments,
      List.Forall₂ (fun blob result => assembleBlob file blob = .ok result) blobs raw ∧
      List.Forall₂ (fun t fragment => t.part.assemble file = .ok fragment) children fragments ∧
      (∀ fragment ∈ fragments, fragment.builder.Buildable) ∧
      (rawFragment raw fragments).builder.Fits ∧ f = rawFragment raw fragments := by
  simp only [← assembleCell_eq]
  rw [← assembleCell_raw_eq_ok, assembleCell_eq]
  rfl

/-- Blocks are assembled behind the operands like cells that are written out. -/
theorem assembleItem_terms (line : Nat) (name : String) (terms : List Term)
    (blocks : List (List Item)) :
    assembleItem file (.instruction line name terms blocks) = (do
      let arguments ← (allTerms line terms blocks).mapM (assembleTerm file)
      return .instruction (← encodeInstruction line name arguments) ⟨file, line⟩) := by
  -- A block is assembled as a cell of code would be.
  have hblocks :
      (blocks.map fun block => Term.cell (.code line [] block)).mapM (assembleTerm file) =
      List.map (fun code => Argument.operand (.code code none)) <$> assembleBlocks file blocks := by
    rw [List.mapM_map, assembleBlocks_eq_mapM, ← mapM_map_result]
    congr 1
  rw [assembleItem, allTerms, List.mapM_append, hblocks, assembleTerms_eq_mapM]
  -- The operands come first, and the blocks behind them.
  cases terms.mapM (assembleTerm file) with
  | error e => rfl
  | ok arguments => cases assembleBlocks file blocks <;> rfl

/-! ## What is made of parts -/

/-- The fragments of an argument have a property. -/
def Argument.AllFragments (good : Fragment → Prop) : Argument → Prop
  | operand (.code f _) => good f
  | operand _ => True
  | dict _ entries => ∀ e ∈ entries, good e.2

/-- The fragments of an argument are those of the parts in its operand. -/
theorem allFragments_of_term (good : Fragment → Prop) (t : Term) (argument : Argument)
    (hparts : ∀ part f, t.Has part → part.assemble file = .ok f → good f)
    (h : assembleTerm file t = .ok argument) : argument.AllFragments good := by
  cases t with
  -- Only cells and dictionaries have fragments in them.
  | integer | stack | control =>
    rw [assembleTerm] at h
    cases h
    trivial
  | bits literal =>
    rw [assembleTerm] at h
    obtain ⟨_, _, h⟩ := (bind_eq_ok _ _ _).mp h
    cases h
    trivial
  | cell c =>
    rw [assembleTerm] at h
    obtain ⟨f, hf, h⟩ := (bind_eq_ok _ _ _).mp h
    cases h
    rw [assembleCell_eq] at hf
    exact hparts c.part f (.cell c) hf
  | dict line entries =>
    rw [assembleTerm] at h
    obtain ⟨assembled, hassembled, h⟩ := (bind_eq_ok _ _ _).mp h
    cases h
    -- An entry is a part of its own.
    intro e he
    obtain ⟨entry, hentry, hassemble⟩ := forall₂_mem_right _ _
      ((assembleEntries_eq_ok file entries assembled).mp hassembled) e he
    obtain ⟨f, hf, rfl⟩ := (assembleEntry_eq_ok file entry e).mp hassemble
    exact hparts (.code entry.2) f (.entry line entries entry hentry) hf

/-- What an instruction is assembled from. -/
theorem assembleItem_terms_eq_ok (line : Nat) (name : String) (terms : List Term)
    (blocks : List (List Item)) (command : Command) :
    assembleItem file (.instruction line name terms blocks) = .ok command ↔ ∃ arguments e,
      List.Forall₂ (fun t argument => assembleTerm file t = .ok argument)
        (allTerms line terms blocks) arguments ∧
      encodeInstruction line name arguments = .ok e ∧ command = .instruction e ⟨file, line⟩ := by
  rw [assembleItem_terms]
  simp only [bind_eq_ok, mapM_eq_ok]
  constructor
  · -- Both sides name the same results.
    intro h
    obtain ⟨arguments, harguments, e, he, h⟩ := h
    cases h
    exact ⟨arguments, e, harguments, he, rfl⟩
  · intro h
    obtain ⟨arguments, e, harguments, he, h⟩ := h
    subst h
    exact ⟨arguments, harguments, e, he, rfl⟩

/-- The fragments of an instruction's arguments are those of the parts in it. -/
theorem allFragments_of_terms (good : Fragment → Prop) (line : Nat) (name : String)
    (terms : List Term) (blocks : List (List Item)) (arguments : List Argument)
    (hparts : ∀ part f, (Item.instruction line name terms blocks).Has part →
      part.assemble file = .ok f → good f)
    (hterms : List.Forall₂ (fun t argument => assembleTerm file t = .ok argument)
      (allTerms line terms blocks) arguments) :
    ∀ argument ∈ arguments, argument.AllFragments good := by
  intro argument hargument
  -- The argument was assembled from a term, whose parts are in the instruction.
  obtain ⟨t, ht, hassemble⟩ := forall₂_mem_right _ _ hterms argument hargument
  apply allFragments_of_term file good t argument ?_ hassemble
  intro part f hpart
  exact hparts part f (.intro line name terms blocks t part ht hpart)

end CellCode.Listing
