import CellCode.Proofs.Listing.InStep
import CellCode.Proofs.Packing.Capacity

/-!
# How assembling can fail

A listing is refused with an error on a line, with a command that fits into no cell, or with a
literal that is no bit string. The functions below know more errors: a chain refuses a debug node
that has not a child for each reference, a debug map refuses a node with too many children, and a
dictionary of negative width has no keys at all. None of these is met, whatever the listing is.
What remains is a reference so deep that no cell can be built above it.

* `pack_eq_error`                packing only fails for commands that are too large
* `buildDictionary_eq_error`     dictionaries
* `encodeInstruction_eq_error`   instructions
* `Part.assemble_eq_error`       all parts of a listing
* `assemble_ok_or_own_error`     whole listings
-/

namespace CellCode

/-! ## Cells and dictionaries -/

/-- A literal that is no bit string is misused. -/
theorem Bits.ofHex_eq_error (text : String) (e : CellError) (h : Bits.ofHex text = .error e) :
    e.kind = .misuse := by
  unfold Bits.ofHex at h
  dsimp only at h
  split at h
  · cases h
    rfl
  · split at h
    · split at h
      · cases h
        rfl
      · cases h
    · cases h

namespace Dictionary

/-- A node can only be too large for its cell, or too deep below. -/
theorem node_eq_error (m : Nat) (entries : List (Bits × Slice)) (e : CellError)
    (h : node m entries = .error e) : e.kind = .overflow ∨ e.IsTooDeep := by
  -- Induction on the key bits that are left, one case for each form of a node.
  induction m using Nat.strongRecOn generalizing entries with
  | ind m ih =>
    rw [node] at h
    rcases (bind_eq_error _ _ _).mp h with h | ⟨b, _, h⟩
    · exact .inl (Builder.storeBits_eq_error _ _ e h)
    -- A leaf takes up its value and is built.
    have hvalue (value : Slice)
        (h : (do (← b.storeSlice value).build) = Except.error e) :
        e.kind = .overflow ∨ e.IsTooDeep := by
      rcases (bind_eq_error _ _ _).mp h with h | ⟨_, _, h⟩
      · exact .inl (b.storeSlice_eq_error value e h)
      · exact Builder.build_eq_error h
    split at h
    · -- The label alone, or the label and the value.
      exact Builder.build_eq_error h
    · exact hvalue _ h
    · exact hvalue _ h
    · -- Both branches are nodes with fewer key bits left.
      rcases (bind_eq_error _ _ _).mp h with h | ⟨zeros, _, h⟩
      · exact ih _ (by omega) _ h
      rcases (bind_eq_error _ _ _).mp h with h | ⟨ones, _, h⟩
      · exact ih _ (by omega) _ h
      rcases (bind_eq_error _ _ _).mp h with h | ⟨b₁, _, h⟩
      · exact .inl (b.storeRef_eq_error zeros e h)
      rcases (bind_eq_error _ _ _).mp h with h | ⟨b₂, _, h⟩
      · exact .inl (b₁.storeRef_eq_error ones e h)
      · exact Builder.build_eq_error h

/-- A dictionary of cells whose width is not negative fails for keys out of range and for nodes
    that are too large or too deep. -/
theorem build_eq_error (mapping : Mapping) (width : Int) (e : CellError) (hwidth : 0 ≤ width)
    (hcells : ∀ entry ∈ mapping, ∃ c, entry.2 = .cell c) (h : build mapping width = .error e) :
    e.kind = .misuse ∨ e.kind = .overflow ∨ e.IsTooDeep := by
  unfold build at h
  split at h
  · cases h
  -- The entries come first: only a key can be refused among them, since the width is no fault.
  rcases (bind_eq_error _ _ _).mp h with h | ⟨entries, _, h⟩
  · obtain ⟨⟨key, value⟩, hentry, h⟩ := exists_of_mapM_eq_error _ _ e h
    obtain ⟨c, rfl⟩ := hcells _ hentry
    unfold keyed at h
    dsimp only at h
    by_cases hkey : key < 0
    · rw [if_pos hkey] at h
      cases h
      exact .inl rfl
    by_cases hlarge : 2 ^ width.toNat ≤ key
    · rw [if_neg hkey, if_neg (by omega), if_pos hlarge] at h
      cases h
      exact .inl rfl
    · rw [if_neg hkey, if_neg (by omega), if_neg hlarge] at h
      cases h
  · rcases (bind_eq_error _ _ _).mp h with h | ⟨_, _, h⟩
    · exact .inr (node_eq_error _ _ e h)
    · cases h

end Dictionary

namespace Listing

/-! ## Errors of a listing -/

/-- The errors on a line that a listing may end with. Where no encoding can be taken there is a
    reason, and cells on a line are not asked for arithmetic without a result, nor are their depths
    too large. -/
def LineError.IsOwn : LineError → Prop
  | cell e => e.kind ≠ .arithmetic ∧ e.kind ≠ .conversion
  | noEncoding _ reason => reason.isSome
  | _ => True

/-- The errors that a listing may end with: one on a line, a command that fits into no cell, or a
    literal that is no bit string. -/
def AssembleError.IsOwn : AssembleError → Prop
  | onLine _ e => e.IsOwn
  | pack (.bits _) => True
  | pack (.payload _ _) => True
  | pack (.debugShape _ _) => False
  | pack (.cell _) => False
  | cell e => e.kind = .misuse
  | debug _ => False

/-- A cell was to have a reference that is more than 65535 deep, when a command was written or
    anywhere else. -/
def AssembleError.IsTooDeep (e : AssembleError) : Prop :=
  ∃ depth, 65535 < depth ∧
    (e = .cell (.referenceTooDeep depth) ∨ e = .pack (.cell (.referenceTooDeep depth)))

/-- One of the errors that a listing may end with, or a reference is too deep. -/
def AssembleError.IsExpected (e : AssembleError) : Prop := e.IsOwn ∨ e.IsTooDeep

/-- A reference that is too deep is expected in any cell. -/
theorem AssembleError.isExpected_cell {e : CellError} (h : e.IsTooDeep) :
    (AssembleError.cell e).IsExpected := by
  obtain ⟨depth, hdepth, rfl⟩ := h
  exact .inr ⟨depth, hdepth, .inl rfl⟩

/-- A result on cells fails with its own error. -/
theorem ofCellResult_eq_error {α : Type} (x : Except CellError α) (e : AssembleError)
    (h : ofCellResult x = .error e) : ∃ e', x = .error e' ∧ e = .cell e' := by
  cases x with
  | ok a => cases h
  | error e' =>
    cases h
    exact ⟨e', rfl, rfl⟩

/-! ## Packing -/

/-- A command whose debug node has a child for each reference, and whose references keep to the
    capacity, is only refused for its size or for a reference that is too deep. -/
theorem Command.write_eq_error (c : Chain) (command : Command) (e : PackError)
    (hshaped : command.Shaped) (hrefs : RefsFit command.fragment)
    (h : command.write c = .error e) : (AssembleError.pack e).IsExpected := by
  -- Raw bits may be too many; an instruction may not fit, or have a reference that cannot be built.
  cases command with
  | blob bits position =>
    rw [Chain.writeBits_eq_error c bits _ e h]
    exact .inl trivial
  | instruction encoding position =>
    rw [write] at h
    split at h
    · -- An instruction without references is written as bits.
      rw [Chain.writeBits_eq_error c _ _ e h]
      exact .inl trivial
    · rename_i hne
      have hlength : (encoding.refs.map Builder.ofCell).length =
          ((Debug.Node.ofPosition position).inlined 0 encoding.dbg).children.length := by
        rw [List.length_map]
        exact hshaped fun hnil => hne (by rw [hnil]; rfl)
      rcases Chain.writeComposite_eq_error c _ _ _ e hlength h with ⟨b, hb, e', he', rfl⟩ | rfl
      · obtain ⟨r, hr, rfl⟩ := List.mem_map.mp hb
        -- The reference is in capacity, so it is only its depth that keeps it from being built.
        have hfits : (Builder.ofCell r).Fits := (hrefs r hr).fits
        obtain ⟨depth, hdepth, rfl⟩ := hfits.build_eq_error he'
        exact .inr ⟨depth, hdepth, .inr rfl⟩
      · exact .inl trivial

/-- Commands in step whose references keep to the capacity are only refused for their size or for
    their depth. -/
theorem pack_eq_error (commands : List Command) (e : AssembleError)
    (hcommands : ∀ command ∈ commands, command.fragment.InStep)
    (hrefs : ∀ command ∈ commands, RefsFit command.fragment) (h : pack commands = .error e) :
    e.IsExpected := by
  -- In step a command has a debug child for each reference.
  have hshaped : ∀ command ∈ commands, command.Shaped := by
    intro command hcommand
    have hstep := hcommands command hcommand
    cases command with
    | blob bits position => trivial
    | instruction encoding position =>
      intro _
      exact hstep.length_eq.symm
  unfold pack at h
  cases hwrites : commands.foldlM Command.write Chain.start with
  | error e' =>
    rw [hwrites] at h
    cases h
    -- The error is that of the first command that could not be written.
    obtain ⟨command, hcommand, c, hwrite⟩ := exists_of_foldlM_eq_error _ _ _ _ hwrites
    exact command.write_eq_error c e' (hshaped command hcommand) (hrefs command hcommand) hwrite
  | ok chain =>
    rw [hwrites] at h
    -- The chain that was written holds the commands, so folding it can only fail for a depth.
    obtain ⟨runs, run, hholds, _⟩ := holds_of_commands hwrites
    obtain ⟨e', hfold, rfl⟩ := ofCellResult_eq_error chain.finalize e h
    rcases hholds.finalize_cases with ⟨_, hroot⟩ | ⟨f, _, r, _, hdeep, herror⟩
    · cases hroot.symm.trans hfold
    · cases herror.symm.trans hfold
      exact AssembleError.isExpected_cell ⟨r.depth, hdeep, rfl⟩

/-! ## Instructions -/

/-- Misuse of cells and too little room are reported on the line, a reference that is too deep
    without one. -/
theorem ofCellResultOn_eq_error {α : Type} (line : Nat) (x : Except CellError α)
    (e : AssembleError)
    (hx : ∀ e', x = .error e' → e'.kind = .misuse ∨ e'.kind = .overflow ∨ e'.IsTooDeep)
    (h : ofCellResultOn line x = .error e) : e.IsExpected := by
  cases x with
  | ok a => cases h
  | error e' =>
    cases h
    -- Misuse and overflow are reported on the line, and the depth is reported as it is.
    rcases hx e' rfl with hkind | hkind | hdeep
    · rw [hkind, if_neg nofun]
      exact .inl (by simp [AssembleError.IsOwn, LineError.IsOwn, hkind])
    · rw [hkind, if_neg nofun]
      exact .inl (by simp [AssembleError.IsOwn, LineError.IsOwn, hkind])
    · obtain ⟨depth, hdepth, rfl⟩ := hdeep
      exact AssembleError.isExpected_cell ⟨depth, hdepth, rfl⟩

/-- A mapping of cells in capacity fails for a key that was there before, and for a reference that
    is too deep. -/
theorem mappingOf_eq_error (line : Nat) (entries : List (Int × Fragment)) (e : AssembleError)
    (hentries : ∀ entry ∈ entries, entry.2.builder.cell.InCapacity)
    (h : mappingOf line entries = .error e) : e.IsExpected := by
  -- The error is that of the first entry that could not be added.
  obtain ⟨⟨key, fragment⟩, hentry, mapping, h⟩ := exists_of_foldlM_eq_error _ _ _ _ h
  dsimp only at h
  by_cases hduplicate : mapping.any (·.1 == key)
  · rw [if_pos hduplicate] at h
    cases h
    exact .inl trivial
  · rw [if_neg hduplicate] at h
    rcases (bind_eq_error _ _ _).mp h with h | ⟨_, _, h⟩
    · -- The value of the entry is in capacity, so it is its depth that keeps it from being built.
      obtain ⟨e', hbuild, rfl⟩ := ofCellResult_eq_error _ e h
      have hfits := Builder.fits_cell.mp (hentries _ hentry).fits
      exact AssembleError.isExpected_cell (hfits.build_eq_error hbuild)
    · cases h

/-- A dictionary is refused on its line, or because it gets too deep. -/
theorem buildDictionary_eq_error (line : Nat) (entries : List (Int × Fragment))
    (arguments : List Argument) (e : AssembleError)
    (hentries : ∀ entry ∈ entries, entry.2.builder.cell.InCapacity)
    (h : buildDictionary line entries arguments = .error e) : e.IsExpected := by
  unfold buildDictionary at h
  -- The checks come in the order in which they are made: width, range, entries, keys, and then the
  -- building.
  cases hwidth : firstInteger? arguments with
  | none =>
    rw [hwidth] at h
    cases h
    exact .inl trivial
  | some width =>
    simp only [hwidth] at h
    by_cases hrange : width < 0 ∨ Cell.maxBits < width
    · rw [if_pos hrange] at h
      cases h
      exact .inl trivial
    by_cases hempty : entries.isEmpty
    · rw [if_neg hrange, if_pos hempty] at h
      cases h
      exact .inl trivial
    rw [if_neg hrange, if_neg hempty] at h
    rcases (bind_eq_error _ _ _).mp h with h | ⟨mapping, hmapping, h⟩
    · exact mappingOf_eq_error line entries e hentries h
    rcases (bind_eq_error _ _ _).mp h with h | ⟨root, _, h⟩
    · obtain ⟨rfl, _⟩ := mappingOf_eq_ok line entries mapping hmapping
      refine ofCellResultOn_eq_error line _ e (fun e' hbuild => ?_) h
      apply Dictionary.build_eq_error _ width e' (by omega) ?_ hbuild
      intro entry hentry
      obtain ⟨e, _, rfl⟩ := List.mem_map.mp hentry
      exact ⟨_, rfl⟩
    · cases root with
      | none =>
        cases h
        exact .inl trivial
      | some root => cases h

/-- When no encoding can be taken, the last one was refused for a reason. -/
theorem firstEncoding_eq_error (operands : List (Operand Fragment)) (formats : List Opcode.Format)
    (reason reason' : Option Unfit) (hreason : formats = [] → reason.isSome)
    (h : firstEncoding operands formats reason = .error reason') : reason'.isSome := by
  -- Induction on the formats: each one that does not fit is a reason for the next.
  induction formats generalizing reason with
  | nil =>
    cases h
    exact hreason rfl
  | cons format formats ih =>
    rw [firstEncoding] at h
    cases htry : tryEncode format operands with
    | ok e =>
      rw [htry] at h
      cases h
    | error unfit =>
      rw [htry] at h
      exact ih (some unfit) (fun _ => rfl) h

/-- An instruction is refused for a dictionary among its operands, or because no format fits. -/
theorem encodeInstruction_eq_error (line : Nat) (name : String) (arguments : List Argument)
    (e : AssembleError)
    (harguments : ∀ argument ∈ arguments,
      argument.AllFragments fun f => f.builder.cell.InCapacity)
    (h : encodeInstruction line name arguments = .error e) : e.IsExpected := by
  rcases (bind_eq_error _ _ _).mp h with h | ⟨operands, _, h⟩
  · obtain ⟨argument, hargument, h⟩ := exists_of_mapM_eq_error _ _ e h
    -- Only dictionaries can be refused when operands are resolved.
    cases argument with
    | operand o => cases h
    | dict dictLine entries =>
      rcases (bind_eq_error _ _ _).mp h with h | ⟨f, _, h⟩
      · exact buildDictionary_eq_error dictLine entries arguments e (harguments _ hargument) h
      · cases h
  · -- A mnemonic without formats is unknown.
    cases hcandidates : Opcode.standard.candidates name with
    | nil =>
      rw [hcandidates] at h
      cases h
      exact .inl trivial
    | cons format formats =>
      rw [hcandidates] at h
      dsimp only at h
      cases hencoding : firstEncoding operands (format :: formats) none with
      | ok encoding =>
        rw [hencoding] at h
        cases h
      | error reason =>
        rw [hencoding] at h
        cases h
        exact .inl
          (firstEncoding_eq_error operands (format :: formats) none reason nofun hencoding)

/-! ## Parts -/

/-- A cell that is written out is refused for its size, or because it gets too deep. -/
theorem buildRaw_eq_error (line : Nat) (blobs : List (Bits × Debug.Position))
    (children : List Fragment) (e : AssembleError) (h : buildRaw line blobs children = .error e) :
    e.IsExpected := by
  refine ofCellResultOn_eq_error line _ e (fun e' hbuild => .inr ?_) h
  -- Storing its bits may fail, and building or storing one of its children.
  rcases (bind_eq_error _ _ _).mp hbuild with h | ⟨f, _, h⟩
  · obtain ⟨blob, _, f, h⟩ := exists_of_foldlM_eq_error _ _ _ _ h
    rcases (bind_eq_error _ _ _).mp h with h | ⟨_, _, h⟩
    · exact .inl (f.builder.storeBits_eq_error _ e' h)
    · cases h
  · -- A child is built before it is stored.
    obtain ⟨child, _, f, h⟩ := exists_of_foldlM_eq_error _ _ _ _ h
    rcases (bind_eq_error _ _ _).mp h with h | ⟨_, _, h⟩
    · exact Builder.build_eq_error h
    rcases (bind_eq_error _ _ _).mp h with h | ⟨_, _, h⟩
    · exact .inl (f.builder.storeRef_eq_error _ e' h)
    · cases h

variable (file : String)

/-- Raw bits are refused if their literal is no bit string. -/
theorem assembleBlob_eq_error (blob : Blob) (e : AssembleError)
    (h : assembleBlob file blob = .error e) : e.IsExpected := by
  rcases (bind_eq_error _ _ _).mp h with h | ⟨_, _, h⟩
  · obtain ⟨e', hliteral, rfl⟩ := ofCellResult_eq_error _ e h
    exact .inl (Bits.ofHex_eq_error blob.literal e' hliteral)
  · cases h

/-- An operand fails in one of the parts in it, or because it is no bit string. -/
theorem assembleTerm_eq_error (t : Term) (e : AssembleError)
    (hparts : ∀ part, t.Has part → ∀ e, part.assemble file = .error e → e.IsExpected)
    (h : assembleTerm file t = .error e) : e.IsExpected := by
  -- Numbers always work out; the others may fail in the literal or the part they have.
  cases t with
  | integer | stack | control =>
    rw [assembleTerm] at h
    cases h
  | bits literal =>
    rw [assembleTerm] at h
    rcases (bind_eq_error _ _ _).mp h with h | ⟨_, _, h⟩
    · obtain ⟨e', hliteral, rfl⟩ := ofCellResult_eq_error _ e h
      exact .inl (Bits.ofHex_eq_error literal e' hliteral)
    · cases h
  | cell c =>
    rw [assembleTerm, assembleCell_eq] at h
    rcases (bind_eq_error _ _ _).mp h with h | ⟨_, _, h⟩
    · exact hparts c.part (.cell c) e h
    · cases h
  | dict line entries =>
    rw [assembleTerm, assembleEntries_eq_mapM] at h
    rcases (bind_eq_error _ _ _).mp h with h | ⟨_, _, h⟩
    · obtain ⟨entry, hentry, h⟩ := exists_of_mapM_eq_error _ _ e h
      obtain ⟨key, items⟩ := entry
      -- A value of a dictionary is a part of its own.
      rw [assembleEntry, ← bind_assoc] at h
      rcases (bind_eq_error _ _ _).mp h with h | ⟨_, _, h⟩
      · exact hparts (.code items) (.entry line entries (key, items) hentry) e h
      · cases h
    · cases h

/-- An item fails in one of its parts, in a literal, or in its encoding. -/
theorem assembleItem_eq_error (item : Item) (e : AssembleError)
    (hparts : ∀ part, item.Has part → ∀ e, part.assemble file = .error e → e.IsExpected)
    (h : assembleItem file item = .error e) : e.IsExpected := by
  cases item with
  | blob b =>
    rw [assembleItem] at h
    rcases (bind_eq_error _ _ _).mp h with h | ⟨_, _, h⟩
    · exact assembleBlob_eq_error file b e h
    · cases h
  | instruction line name terms blocks =>
    rw [assembleItem_terms] at h
    -- The operands are assembled first, and then the instruction is encoded with them.
    rcases (bind_eq_error _ _ _).mp h with h | ⟨arguments, harguments, h⟩
    · obtain ⟨t, ht, h⟩ := exists_of_mapM_eq_error _ _ e h
      apply assembleTerm_eq_error file t e ?_ h
      intro part hpart
      exact hparts part (.intro line name terms blocks t part ht hpart)
    · rcases (bind_eq_error _ _ _).mp h with h | ⟨_, _, h⟩
      · refine encodeInstruction_eq_error line name arguments e ?_ h
        exact allFragments_of_terms file _ line name terms blocks arguments
          (fun part f _ => part.inCapacity file f) ((mapM_eq_ok _ _ _).mp harguments)
      · cases h

/-- No part of a listing ends with another error. -/
theorem Part.assemble_eq_error (part : Part) (e : AssembleError)
    (h : part.assemble file = .error e) : e.IsExpected := by
  revert e
  -- Induction on the part, with its items, or its children, as smaller parts.
  refine Part.induct (fun part => ∀ e, part.assemble file = .error e → e.IsExpected) ?_ ?_ part
  · intro items hparts e h
    rcases (bind_eq_error _ _ _).mp h with h | ⟨commands, hcommands, h⟩
    · rw [assembleItems_eq_mapM] at h
      obtain ⟨item, hitem, h⟩ := exists_of_mapM_eq_error _ _ e h
      exact assembleItem_eq_error file item e (hparts item hitem) h
    · -- Items that were assembled are in step and have references in capacity.
      have hitems := (assembleItems_eq_ok file items commands).mp hcommands
      refine pack_eq_error commands e ?_ ?_ h
      · intro command hcommand
        obtain ⟨item, _, hassemble⟩ := forall₂_mem_right _ _ hitems command hcommand
        exact assembleItem_inStep file item command (fun part f _ => part.inStep file f) hassemble
      · intro command hcommand
        obtain ⟨item, _, hassemble⟩ := forall₂_mem_right _ _ hitems command hcommand
        exact assembleItem_inCapacity file item command (fun part f _ => part.inCapacity file f)
          hassemble
  · intro line blobs children hchildren e h
    -- First the raw bits, then the children, and then the cell itself.
    rcases (bind_eq_error _ _ _).mp h with h | ⟨raw, _, h⟩
    · obtain ⟨blob, _, h⟩ := exists_of_mapM_eq_error _ _ e h
      exact assembleBlob_eq_error file blob e h
    · rw [assembleCells_eq_mapM] at h
      rcases (bind_eq_error _ _ _).mp h with h | ⟨fragments, _, h⟩
      · obtain ⟨t, ht, h⟩ := exists_of_mapM_eq_error _ _ e h
        rw [assembleCell_eq] at h
        exact hchildren t ht e h
      · exact buildRaw_eq_error line raw fragments e h

/-- Every listing is assembled into a cell and its debug map, or refused with one of the errors
    that are meant for it, unless a cell was to have a reference that is more than 65535 deep. -/
theorem assemble_ok_or_own_error (source : String) :
    (∃ root map, assemble source file = .ok (root, map)) ∨
      ∃ e, assemble source file = .error e ∧ (e.IsOwn ∨ e.IsTooDeep) := by
  -- The source may not parse; then its line is reported. Otherwise its items are assembled as one
  -- part.
  cases hparse : parse (lex source) with
  | error line =>
    refine .inr ⟨.onLine line .unexpected, ?_, .inl trivial⟩
    rw [assemble, assembleFragment, hparse]
    rfl
  | ok items =>
    have hfragment : assembleFragment source file = (Part.code items).assemble file := by
      rw [assembleFragment, hparse]
      rfl
    cases hassemble : (Part.code items).assemble file with
    | error e =>
      refine .inr ⟨e, ?_, Part.assemble_eq_error file (.code items) e hassemble⟩
      rw [assemble, hfragment, hassemble]
      rfl
    | ok f =>
      -- The root keeps to the capacity, so it can be built unless it is too deep.
      have hfits := Builder.fits_cell.mp (Part.inCapacity file (.code items) f hassemble).fits
      -- The debug map of the root can always be built, because its node is in step.
      rcases Builder.build_of_fits hfits with ⟨hbuild, _⟩ | ⟨r, _, hdeep, herror⟩
      · obtain ⟨map, hmap⟩ := (Part.inStep file (.code items) f hassemble).build hbuild
        exact .inl ⟨f.builder.cell, map, (assemble_eq_ok file source _).mpr
          ⟨items, f, hparse, hassemble, hmap⟩⟩
      · refine .inr ⟨.cell (.referenceTooDeep r.depth), ?_, .inr ⟨r.depth, hdeep, .inl rfl⟩⟩
        rw [assemble, hfragment, hassemble]
        simp only [bind, Except.bind, Fragment.build_eq_error herror]
        rfl

end Listing

end CellCode
