import CellCode.Proofs.Dictionary.Trees
import CellCode.Proofs.Listing.Parts
import CellCode.Proofs.Opcode.Holding

/-!
# Assembled cells keep to the capacity

Whatever a listing writes, the cells that are made of it hold no more bits and references than
cells may: packing opens a new cell in time, and the cells of literals and dictionaries are
refused if they hold too much.

* `buildDictionary_tree`       a dictionary that is built is a tree of its entries
* `assembleItems_inCapacity`   code that was assembled and packed
-/

namespace CellCode.Listing

/-! ## Dictionaries -/

/-- An entry is added to the mapping if its key is new and its cell can be built. -/
private theorem addEntry_eq_ok (line : Nat) (mapping next : Dictionary.Mapping)
    (entry : Int × Fragment) :
    (do
      if mapping.any (·.1 == entry.1) then
        throw (AssembleError.onLine line (.duplicateKey entry.1))
      return mapping ++ [(entry.1, Dictionary.Value.cell (← ofCellResult entry.2.builder.build))]) =
        Except.ok next ↔
      (∀ a ∈ mapping, a.1 ≠ entry.1) ∧ entry.2.builder.Buildable ∧
        next = mapping ++ [(entry.1, .cell entry.2.builder.cell)] := by
  have hany : mapping.any (·.1 == entry.1) = true ↔ ¬ ∀ a ∈ mapping, a.1 ≠ entry.1 := by
    simp [List.any_eq_true]
  -- The key is there already, so the entry is refused.
  by_cases hkey : mapping.any (·.1 == entry.1)
  · rw [if_pos hkey]
    constructor
    · intro h
      cases h
    · rintro ⟨hnew, _⟩
      exact absurd hnew (hany.mp hkey)
  · -- The key is new, and what is left is to build the cell.
    rw [if_neg hkey, and_iff_right (not_not.mp fun h => hkey (hany.mpr h))]
    show (ofCellResult entry.2.builder.build >>= fun c => Except.ok
      (mapping ++ [(entry.1, Dictionary.Value.cell c)])) = Except.ok next ↔ _
    simp only [bind_eq_ok, ofCellResult_eq_ok, Builder.build_eq_ok, Except.ok.injEq]
    constructor
    · rintro ⟨_, ⟨hbuild, rfl⟩, rfl⟩
      exact ⟨hbuild, rfl⟩
    · rintro ⟨hbuild, rfl⟩
      exact ⟨_, ⟨hbuild, rfl⟩, rfl⟩

/-- Entries are added one by one. -/
private theorem mappingOf_from (line : Nat) (entries : List (Int × Fragment))
    (before mapping : Dictionary.Mapping) (hbefore : before.Pairwise fun a b => a.1 ≠ b.1)
    (h : entries.foldlM (fun (mapping : Dictionary.Mapping) (entry : Int × Fragment) => do
      if mapping.any (·.1 == entry.1) then
        throw (AssembleError.onLine line (.duplicateKey entry.1))
      return mapping ++ [(entry.1, Dictionary.Value.cell (← ofCellResult entry.2.builder.build))])
        before = .ok mapping) :
    mapping = before ++ entries.map (fun e => (e.1, .cell e.2.builder.cell)) ∧
      (∀ e ∈ entries, e.2.builder.Buildable) ∧ mapping.Pairwise fun a b => a.1 ≠ b.1 := by
  -- Induction on the entries, with the mapping so far.
  induction entries generalizing before with
  | nil =>
    cases h
    exact ⟨by simp, nofun, hbefore⟩
  | cons e entries ih =>
    obtain ⟨next, hnext, h⟩ := (foldlM_cons_eq_ok _ _ _ _ _).mp h
    obtain ⟨hnew, hbuild, rfl⟩ := (addEntry_eq_ok line before next e).mp hnext
    -- The keys differ still, since the new one was not there before.
    obtain ⟨rfl, hall, hpairwise⟩ := ih _ (by
      rw [List.pairwise_append]
      refine ⟨hbefore, List.pairwise_singleton _ _, ?_⟩
      intro a ha b hb
      rw [List.mem_singleton.mp hb]
      exact hnew a ha) h
    exact ⟨by simp, List.forall_mem_cons.mpr ⟨hbuild, hall⟩, hpairwise⟩

/-- The mapping of entries whose keys differ and whose cells can be built. -/
theorem mappingOf_eq_ok (line : Nat) (entries : List (Int × Fragment))
    (mapping : Dictionary.Mapping) (h : mappingOf line entries = .ok mapping) :
    mapping = entries.map (fun e => (e.1, .cell e.2.builder.cell)) ∧
      (∀ e ∈ entries, e.2.builder.Buildable) ∧ mapping.Pairwise fun a b => a.1 ≠ b.1 :=
  mappingOf_from line entries [] mapping .nil h

variable {has : Cell → Prop}

/-- What a dictionary is built from: a width in range, and entries with different keys. -/
theorem buildDictionary_eq_ok (line : Nat) (entries : List (Int × Fragment))
    (arguments : List Argument) (f : Fragment)
    (h : buildDictionary line entries arguments = .ok f) :
    ∃ width mapping root, firstInteger? arguments = some width ∧
      mappingOf line entries = .ok mapping ∧ Dictionary.build mapping width = .ok (some root) ∧
      f = ⟨.ofCell root, .empty⟩ := by
  unfold buildDictionary at h
  -- Without a number there is no width.
  cases hwidth : firstInteger? arguments with
  | none =>
    rw [hwidth] at h
    cases h
  | some width =>
    simp only [hwidth] at h
    -- The width is out of range, or there are no entries; both are refused.
    by_cases hrange : width < 0 ∨ Cell.maxBits < width
    · rw [if_pos hrange] at h
      cases h
    by_cases hempty : entries.isEmpty
    · rw [if_neg hrange, if_pos hempty] at h
      cases h
    rw [if_neg hrange, if_neg hempty] at h
    obtain ⟨mapping, hmapping, h⟩ := (bind_eq_ok _ _ _).mp h
    obtain ⟨root, hroot, h⟩ := (bind_eq_ok _ _ _).mp h
    rw [ofCellResultOn_eq_ok] at hroot
    -- There are entries, so the dictionary has a root.
    cases root with
    | none => cases h
    | some root =>
      cases h
      exact ⟨width, mapping, root, rfl, hmapping, hroot, rfl⟩

/-- A dictionary that is built has keys as wide as the first number says, and its entries as
    values. -/
theorem buildDictionary_tree (line : Nat) (entries : List (Int × Fragment))
    (arguments : List Argument) (f : Fragment)
    (hentries : ∀ e ∈ entries, e.2.builder.Buildable → has e.2.builder.cell)
    (h : buildDictionary line entries arguments = .ok f) :
    ∃ width, firstInteger? arguments = some width ∧ 0 ≤ width ∧
      Dictionary.Tree has width.toNat f.builder.cell := by
  obtain ⟨width, mapping, root, hwidth, hmapping, hroot, rfl⟩ :=
    buildDictionary_eq_ok line entries arguments f h
  obtain ⟨rfl, hbuild, hdistinct⟩ := mappingOf_eq_ok line entries mapping hmapping
  -- The values are the cells of the entries.
  have hvalues : ∀ e ∈ entries.map fun e => (e.1, Dictionary.Value.cell e.2.builder.cell),
      ∃ v, has v ∧ e.2 = .cell v := by
    intro e he
    obtain ⟨entry, hentry, rfl⟩ := List.mem_map.mp he
    exact ⟨_, hentries entry hentry (hbuild entry hentry), rfl⟩
  obtain ⟨hpos, htree⟩ := Dictionary.build_tree _ width root hvalues hdistinct hroot
  exact ⟨width, hwidth, hpos, by rwa [Builder.cell_ofCell]⟩

/-- The first number is one of the operands. -/
theorem firstInteger?_mem (arguments : List Argument) (operands : List (Operand Fragment))
    (v : Int) (hresolve : List.Forall₂ (fun argument o => argument.resolve arguments = .ok o)
      arguments operands) (h : firstInteger? arguments = some v) : .integer v ∈ operands := by
  obtain ⟨argument, hargument, hv⟩ := List.exists_of_findSome?_eq_some h
  obtain ⟨o, ho, hresolved⟩ := forall₂_mem_left _ _ hresolve argument hargument
  -- The argument is a number, which resolves to itself.
  split at hv
  · cases hv
    cases hresolved
    exact ho
  · cases hv

/-- A dictionary is built for a number, and next to a number there is no place for code but
    cells. -/
theorem buildDictionary_fields (format : Opcode.Format) (hmem : format ∈ Opcode.instructions)
    (arguments : List Argument) (operands : List (Operand Fragment))
    (hresolve : List.Forall₂ (fun argument o => argument.resolve arguments = .ok o) arguments
      operands) (hkinds : List.Forall₂ Field.SameKind format.fields operands) (line : Nat)
    (entries : List (Int × Fragment)) (f : Fragment)
    (h : buildDictionary line entries arguments = .ok f) :
    ∀ field ∈ format.fields, field.takesCode → field = .cell := by
  obtain ⟨width, _, _, hwidth, _⟩ := buildDictionary_eq_ok line entries arguments f h
  -- The number has a field of its own, so the instruction has a field of numbers.
  obtain ⟨field, hfield, hnumber⟩ := forall₂_mem_right _ _ hkinds _
    (firstInteger?_mem arguments operands width hresolve hwidth)
  exact Opcode.instructions_number_code format hmem (List.any_eq_true.mpr ⟨field, hfield, hnumber⟩)

/-! ## Items, terms and cells -/

/-- The references of a fragment keep to the capacity. -/
def RefsFit (f : Fragment) : Prop := ∀ r ∈ f.builder.refs, r.InCapacity

/-- A fragment that fits and has references in capacity is built into a cell in capacity. -/
private theorem inCapacity_cell (f : Fragment) (hfits : f.builder.Fits) (hrefs : RefsFit f) :
    f.builder.cell.InCapacity := by
  refine .intro ?_ ?_
  · rwa [Builder.cell, Cell.Fits, Cell.bits_mk, Cell.refs_mk]
  · rwa [Builder.cell, Cell.refs_mk]

/-- What commands are packed into keeps to the capacity when their references do. -/
theorem pack_inCapacity (commands : List Command) (f : Fragment)
    (hcommands : ∀ a ∈ commands, ∀ r ∈ a.fragment.builder.refs, r.InCapacity)
    (h : pack commands = .ok f) : f.builder.cell.InCapacity := by
  -- Taking over adds references that keep to the capacity.
  have htake (f g : Fragment) (hf : RefsFit f) (hg : RefsFit g) : RefsFit (f.takeOver g) := by
    intro r hr
    rcases List.mem_append.mp hr with hr | hr
    · exact hf r hr
    · exact hg r hr
  -- A link adds a cell that does so too.
  have hlink (f g : Fragment) (hf : RefsFit f) (hg : RefsFit g) (hfits : g.builder.Fits) :
      RefsFit (f.linkTo g) := by
    intro r hr
    rcases List.mem_append.mp hr with hr | hr
    · exact hf r hr
    · rw [List.mem_singleton.mp hr]
      exact inCapacity_cell g hfits hg
  obtain ⟨hrefs, hfits⟩ := pack_induct RefsFit htake hlink nofun commands f hcommands h
  exact inCapacity_cell f hfits hrefs

/-- What code refers to keeps to the capacity as the code does. -/
private theorem refers_code (f : Fragment) (source : Option Cell) (h : f.builder.cell.InCapacity)
    (r : Cell) (hr : (Operand.code f source).Refers r) : r.InCapacity := by
  obtain ⟨_, _, ⟨⟩, hr⟩ := hr
  -- The code is a cell of its own, or its references are taken out of it.
  rcases hr with rfl | hr
  · exact h
  · have hrefs := h.refs
    rw [Builder.cell, Cell.refs_mk] at hrefs
    exact hrefs r hr

/-- An instruction refers to cells of its operands only. -/
private theorem encodeInstruction_inCapacity (line : Nat) (name : String)
    (arguments : List Argument) (e : Encoding)
    (harguments : ∀ argument ∈ arguments,
      argument.AllFragments fun f => f.builder.cell.InCapacity)
    (h : encodeInstruction line name arguments = .ok e) : ∀ r ∈ e.refs, r.InCapacity := by
  obtain ⟨operands, hresolve, hencode⟩ := (encodeInstruction_eq_ok line name arguments e).mp h
  obtain ⟨format, _, hformat, _⟩ := firstEncoding_eq_ok operands _ none e hencode
  intro r hr
  obtain ⟨o, ho, hr⟩ := (format.encode_holds operands e hformat).2 r hr
  obtain ⟨argument, hargument, hresolve⟩ := forall₂_mem_right _ _ hresolve o ho
  have hcapacity := harguments argument hargument
  -- The operand is given directly, or it is a dictionary that was built.
  cases argument with
  | operand o' =>
    cases hresolve
    have ⟨f, source, ho, _⟩ := hr
    subst ho
    exact refers_code f source hcapacity r hr
  | dict line entries =>
    obtain ⟨f, hf, ho⟩ := (bind_eq_ok _ _ _).mp hresolve
    cases ho
    obtain ⟨width, _, _, htree⟩ := buildDictionary_tree line entries arguments f
      (fun e he _ => hcapacity e he) hf
    exact refers_code f none (htree.inCapacity _ _ fun v hv => hv) r hr

variable (file : String)

/-- An item refers to cells in capacity when the parts in it are. -/
theorem assembleItem_inCapacity (item : Item) (command : Command)
    (hparts : ∀ part f, item.Has part → part.assemble file = .ok f →
      f.builder.cell.InCapacity)
    (h : assembleItem file item = .ok command) : RefsFit command.fragment := by
  -- Raw bits have no references.
  cases item with
  | blob b =>
    rw [assembleItem] at h
    obtain ⟨_, _, h⟩ := (bind_eq_ok _ _ _).mp h
    cases h
    intro r hr
    cases hr
  -- An instruction has those of its operands, which are parts in it.
  | instruction line name terms blocks =>
    obtain ⟨arguments, e, hterms, hencode, rfl⟩ :=
      (assembleItem_terms_eq_ok file line name terms blocks command).mp h
    exact encodeInstruction_inCapacity line name arguments e
      (allFragments_of_terms file _ line name terms blocks arguments hparts hterms) hencode

/-- Every part of a listing is assembled into cells in capacity. -/
theorem Part.inCapacity (part : Part) (f : Fragment) (h : part.assemble file = .ok f) :
    f.builder.cell.InCapacity := by
  revert f
  -- Induction on the part: code with its items, or a cell with its children.
  refine Part.induct (fun part => ∀ f, part.assemble file = .ok f → f.builder.cell.InCapacity)
    ?_ ?_ part
  · intro items hparts f h
    obtain ⟨commands, hcommands, hpack⟩ := (bind_eq_ok _ _ _).mp h
    refine pack_inCapacity commands f ?_ hpack
    intro command hcommand
    obtain ⟨item, hitem, hassemble⟩ := forall₂_mem_right _ _
      ((assembleItems_eq_ok file items commands).mp hcommands) command hcommand
    exact assembleItem_inCapacity file item command
      (fun part f hpart => hparts item hitem part hpart f) hassemble
  · intro line blobs children hchildren f h
    obtain ⟨raw, fragments, _, hfragments, _, hfits, rfl⟩ :=
      (Part.assemble_raw_eq_ok file line blobs children f).mp h
    refine inCapacity_cell _ hfits ?_
    intro r hr
    rw [(rawFragment_parts raw fragments).1] at hr
    obtain ⟨g, hg, rfl⟩ := List.mem_map.mp hr
    obtain ⟨t, ht, hassemble⟩ := forall₂_mem_right _ _ hfragments g hg
    exact hchildren t ht g hassemble

/-- Code that was assembled and packed keeps to the capacity. -/
theorem assembleItems_inCapacity (items : List Item) (f : Fragment)
    (h : (assembleItems file items >>= pack) = .ok f) : f.builder.cell.InCapacity :=
  Part.inCapacity file (.code items) f h

end CellCode.Listing
