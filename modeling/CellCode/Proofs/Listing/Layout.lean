import CellCode.Proofs.Opcode.Nesting
import CellCode.Proofs.Opcode.RoundTrip

/-!
# How listings are laid out in cells

The items of a part stand one behind the other, code that is an operand stands in the instruction
where its field says, and cells in a cell stand in its references. All this follows from the sizes
of what is assembled, and debug nodes record what they have to in just these places.

* `Part.ItemAt`    where an item of a part stands
* `Item.Nests`     where a part in an item stands
* `Item.LaidOut`   what an item shows and records, in terms of the parts in it
* `Part.LaidOut`   what a part shows and records, in terms of its items and children
* `assembleItem_laidOut`, `Part.laidOut`   whatever is assembled is laid out like this
-/

namespace CellCode.Listing

/-! ## Places -/

namespace Item

def line : Item → Nat
  | instruction line _ _ _ => line
  | blob b => b.line

/-- The operands of an item as they are written, blocks included. -/
def terms : Item → List Term
  | instruction line _ operands blocks => allTerms line operands blocks
  | blob _ => []

/-- The operands that an item is encoded with. -/
def operands (file : String) (item : Item) : Except AssembleError (List (Operand Fragment)) := do
  let arguments ← item.terms.mapM (assembleTerm file)
  arguments.mapM (Argument.resolve arguments)

/-- In an item at the slice `s`, an operand that is a part stands at another slice. Dictionaries
    are no parts of their own. -/
inductive Nests (file : String) (s : Slice) : Item → Part → Slice → Prop
  | intro {item : Item} {e : Encoding} {position : Debug.Position} {format : Opcode.Format}
      {operands : List (Operand Fragment)} {i : Nat} {t : CellTerm} {f : Fragment} {u : Slice}
      (assembled : assembleItem file item = .ok (.instruction e position))
      (format_eq : Opcode.standard.find? e.bits = some format)
      (operands_eq : item.operands file = .ok operands)
      (term_at : item.terms[i]? = some (.cell t))
      (code_at : format.CodeAt operands s i f u) : Nests file s item t.part u

end Item

namespace Part

/-- What stands in a row at the front of a part. -/
def items : Part → List Item
  | code items => items
  | raw _ blobs _ => blobs.map .blob

/-- The cells that become references of a part. -/
def children : Part → List CellTerm
  | code _ => []
  | raw _ _ children => children

variable (file : String)

/-- An item of a part at the slice `s` is assembled into the command and stands at the slice `t`. -/
def ItemAt (part : Part) (s : Slice) (item : Item) (command : Command) (t : Slice) : Prop :=
  ∃ (commands : List Command) (n : Nat), assembleItems file part.items = .ok commands ∧
    part.items[n]? = some item ∧ commands[n]? = some command ∧
    s.place (commands.map (·.fragment.builder)) n = some t

end Part

/-! ## Items -/

variable (file : String)

/-- What an item shows and records, in terms of the parts in it. -/
structure Item.LaidOut (item : Item) (command : Command) (s : Slice) : Prop where
  shown : ∀ sub u, item.Nests file s sub u → ∃ f, sub.assemble file = .ok f ∧
    u.Shows f.builder.bits f.builder.refs ∧ s.cell.Reaches u.cell
  found : ∀ t, .cell t ∈ item.terms → ∃ u, item.Nests file s t.part u
  records : ∀ c o p, command.fragment.dbg.Records s c o p ↔
    (c = s.cell ∧ o = s.bitPos ∧ p = ⟨file, item.line⟩) ∨
      ∃ sub u f, item.Nests file s sub u ∧ sub.assemble file = .ok f ∧ f.dbg.Records u c o p

/-- What an operand that is written like this is encoded as. -/
def Term.Becomes (t : Term) (operand : Operand Fragment) : Prop :=
  ∃ argument arguments, assembleTerm file t = .ok argument ∧
    argument.resolve arguments = .ok operand

/-- A cell that is written out becomes the code of its part. -/
theorem Term.Becomes.of_part {t : CellTerm} {operand : Operand Fragment}
    (h : (Term.cell t).Becomes file operand) :
    ∃ f, t.part.assemble file = .ok f ∧ operand = .code f none := by
  obtain ⟨argument, arguments, ht, hresolve⟩ := h
  -- A cell is assembled as its part, and resolving its code changes nothing.
  rw [assembleTerm] at ht
  obtain ⟨f, hf, ht⟩ := (bind_eq_ok _ _ _).mp ht
  cases ht
  cases hresolve
  rw [assembleCell_eq] at hf
  exact ⟨f, hf, rfl⟩

/-- Code is that of a part, or it is a dictionary, which records nothing. -/
theorem Term.Becomes.of_code {t : Term} {f : Fragment} {source : Option Cell}
    (h : t.Becomes file (.code f source)) : (∃ c, t = .cell c) ∨ f.dbg = .empty := by
  obtain ⟨argument, arguments, ht, hresolve⟩ := h
  cases t with
  | cell c => exact .inl ⟨c, rfl⟩
  -- Operands of the other kinds resolve to no code, so they do not arise.
  | integer | stack | control =>
    rw [assembleTerm] at ht
    cases ht
    cases hresolve
  | bits literal =>
    rw [assembleTerm] at ht
    obtain ⟨_, _, ht⟩ := (bind_eq_ok _ _ _).mp ht
    cases ht
    cases hresolve
  | dict line entries =>
    rw [assembleTerm] at ht
    obtain ⟨assembled, _, ht⟩ := (bind_eq_ok _ _ _).mp ht
    cases ht
    -- A dictionary is built from its fields without any debug positions.
    obtain ⟨g, hg, hcode⟩ := (bind_eq_ok _ _ _).mp hresolve
    cases hcode
    obtain ⟨_, _, root, _, _, _, rfl⟩ := buildDictionary_eq_ok _ _ _ _ hg
    exact .inr rfl

/-- How an item is encoded: the format that is read back from its bits, and the operands. -/
structure Item.EncodedBy (item : Item) (e : Encoding) (format : Opcode.Format)
    (operands : List (Operand Fragment)) : Prop where
  mem : format ∈ Opcode.instructions
  format_eq : Opcode.standard.find? e.bits = some format
  operands_eq : item.operands file = .ok operands
  encode_eq : format.encode operands = .ok e
  admits : List.Forall₂ Field.Admits format.fields operands
  becomes : List.Forall₂ (Term.Becomes file) item.terms operands

theorem exists_encodedBy (line : Nat) (name : String) (terms : List Term)
    (blocks : List (List Item)) (command : Command)
    (h : assembleItem file (.instruction line name terms blocks) = .ok command) :
    ∃ e format operands, command = .instruction e ⟨file, line⟩ ∧
      (Item.instruction line name terms blocks).EncodedBy file e format operands := by
  obtain ⟨arguments, e, hterms, hencode, rfl⟩ :=
    (assembleItem_terms_eq_ok file line name terms blocks command).mp h
  obtain ⟨operands, hresolve, hfirst⟩ := (encodeInstruction_eq_ok line name arguments e).mp hencode
  obtain ⟨format, hcandidate, hformat, hshadow⟩ := firstEncoding_eq_ok operands _ none e hfirst
  have hmem := (List.mem_filter.mp hcandidate).1
  -- The bits of the item are those of the format, so the format is found from them alone.
  have hfind := Opcode.find?_encode format operands e [] hmem hformat hshadow
  rw [List.append_nil] at hfind
  refine ⟨e, format, operands, rfl, hmem, hfind, ?_, hformat, ?_, ?_⟩
  · simp only [Item.operands, bind_eq_ok, mapM_eq_ok]
    exact ⟨arguments, hterms, hresolve⟩
  · -- The operands are admitted by the fields because the code in them is in step.
    have hfragments := allFragments_of_terms file Fragment.InStep line name terms blocks arguments
      (fun sub f _ hf => Part.inStep file sub f hf) hterms
    exact admits_of_resolve format hmem arguments operands hresolve
      (format.encode_holds operands e hformat).1 hfragments
  · -- Term by term: first the argument it is assembled to, then the operand this resolves to.
    exact forall₂_comp (fun t argument operand ht hresolved => ⟨argument, arguments, ht, hresolved⟩)
      _ _ _ hterms hresolve.flip

/-- The parts in an instruction are the operands that are written as cells, where their code
    stands. -/
theorem Item.EncodedBy.nests_iff {item : Item} {e : Encoding} {format : Opcode.Format}
    {operands : List (Operand Fragment)} {position : Debug.Position}
    (h : item.EncodedBy file e format operands)
    (hitem : assembleItem file item = .ok (.instruction e position)) (s : Slice) (sub : Part)
    (u : Slice) :
    item.Nests file s sub u ↔ ∃ (i : Nat) (t : CellTerm) (f : Fragment),
      sub = t.part ∧ item.terms[i]? = some (.cell t) ∧ t.part.assemble file = .ok f ∧
        format.CodeAt operands s i f u := by
  constructor
  · -- The item is assembled once, so its format and operands are those at hand, and code among the
    -- operands is that of a part.
    intro hnests
    cases hnests with
    | @intro _ _ _ _ i t f _ assembled format_eq operands_eq term_at code_at =>
      rw [hitem] at assembled
      cases assembled
      rw [h.format_eq] at format_eq
      cases format_eq
      rw [h.operands_eq] at operands_eq
      cases operands_eq
      obtain ⟨operand, hoperand, hbecomes⟩ := forall₂_getElem? h.becomes i _ term_at
      obtain ⟨g, hg, rfl⟩ := hbecomes.of_part
      obtain ⟨field, source, hpair⟩ := CodeAt.operand code_at
      rw [(List.getElem?_zip_eq_some.mp hpair).2] at hoperand
      cases hoperand
      exact ⟨i, t, f, rfl, term_at, hg, code_at⟩
  · -- The parts of an operand that stands in the code are nested by definition.
    intro hcode
    obtain ⟨i, t, f, rfl, term_at, _, code_at⟩ := hcode
    exact .intro hitem h.format_eq h.operands_eq term_at code_at

/-- Raw bits show and record themselves only. -/
private theorem blob_laidOut (b : Blob) (bits : Bits) (s : Slice) :
    (Item.blob b).LaidOut file (.blob bits ⟨file, b.line⟩) s := by
  -- Raw bits have no operands, so no part is nested in them.
  have hnests (sub : Part) (u : Slice) : ¬ (Item.blob b).Nests file s sub u := by
    intro hnests
    cases hnests with
    | intro _ _ _ term_at => cases term_at
  constructor
  · intro sub u hsub
    exact absurd hsub (hnests sub u)
  · intro t ht
    cases ht
  · -- Only the first alternative is left, the position of the bits themselves.
    intro c o p
    rw [or_iff_left]
    · exact Debug.Node.records_ofPosition _ s c o p
    · intro hsub
      obtain ⟨sub, u, _, hsub, _⟩ := hsub
      exact hnests sub u hsub

/-- An instruction shows and records itself and the code of its operands. -/
private theorem instruction_laidOut (line : Nat) (name : String) (terms : List Term)
    (blocks : List (List Item)) (command : Command) (s : Slice) (more : Bits)
    (moreRefs : List Cell)
    (h : assembleItem file (.instruction line name terms blocks) = .ok command)
    (hs : s.Shows (command.fragment.builder.bits ++ more)
      (command.fragment.builder.refs ++ moreRefs)) :
    (Item.instruction line name terms blocks).LaidOut file command s := by
  obtain ⟨e, format, operands, rfl, hencoded⟩ := exists_encodedBy file line name terms blocks _ h
  -- What the encoded operands show and record is known of any format. It is carried over from
  -- operands to the parts they were written as.
  have hnests :=
    format.encode_nests operands e s more moreRefs hencoded.encode_eq hencoded.admits hs
  constructor
  · intro sub u hsub
    obtain ⟨i, t, f, rfl, _, hf, hu⟩ := (hencoded.nests_iff file h s sub u).mp hsub
    exact ⟨f, hf, hnests.shown i f u hu⟩
  · -- The operand of a written cell is its code, which stands somewhere in the encoding.
    intro t ht
    obtain ⟨i, hi⟩ := List.mem_iff_getElem?.mp ht
    obtain ⟨operand, hoperand, hbecomes⟩ := forall₂_getElem? hencoded.becomes i _ hi
    obtain ⟨f, hf, rfl⟩ := hbecomes.of_part
    obtain ⟨u, hu⟩ := hnests.found i f none hoperand
    exact ⟨u, (hencoded.nests_iff file h s _ u).mpr ⟨i, t, f, rfl, hi, hf, hu⟩⟩
  · -- The item records its own position at its first bit, and behind it what its operands record.
    intro c o p
    show ((Debug.Node.ofPosition ⟨file, line⟩).inlined 0 e.dbg).Records s c o p ↔ _
    have hinlined := Fragment.records_inlined s c o p (.ofPosition ⟨file, line⟩) e.dbg .empty rfl
    rw [Slice.behind_empty] at hinlined
    rw [show (0 : Int) = ((Builder.empty.bits.length : Nat) : Int) from rfl, hinlined,
      Debug.Node.records_ofPosition, hnests.records]
    apply or_congr_right
    constructor
    · intro hrecords
      obtain ⟨i, f, u, hu, hrecords⟩ := hrecords
      obtain ⟨field, source, hpair⟩ := CodeAt.operand hu
      have hoperand := (List.getElem?_zip_eq_some.mp hpair).2
      obtain ⟨t, ht, hflip⟩ := forall₂_getElem? hencoded.becomes.flip i _ hoperand
      have hbecomes : t.Becomes file (.code f source) := hflip
      -- Code that is no part is a dictionary.
      rcases hbecomes.of_code with ⟨t, rfl⟩ | hempty
      · obtain ⟨g, hg, hcode⟩ := hbecomes.of_part
        cases hcode
        exact ⟨t.part, u, f, (hencoded.nests_iff file h s _ u).mpr ⟨i, t, f, rfl, ht, hg, hu⟩, hg,
          hrecords⟩
      · rw [hempty] at hrecords
        exact absurd hrecords (Debug.Node.not_records_empty u c o p)
    · intro hrecords
      obtain ⟨sub, u, g, hsub, hg, hrecords⟩ := hrecords
      obtain ⟨i, t, f, rfl, _, hf, hu⟩ := (hencoded.nests_iff file h s sub u).mp hsub
      rw [hg] at hf
      cases hf
      exact ⟨i, g, u, hu, hrecords⟩

/-- Items are laid out where they are shown. -/
theorem assembleItem_laidOut (item : Item) (command : Command) (s : Slice) (more : Bits)
    (moreRefs : List Cell) (h : assembleItem file item = .ok command)
    (hs : s.Shows (command.fragment.builder.bits ++ more)
      (command.fragment.builder.refs ++ moreRefs)) : item.LaidOut file command s := by
  -- By the kind of item.
  cases item with
  | instruction line name terms blocks =>
    exact instruction_laidOut file line name terms blocks command s more moreRefs h hs
  | blob b =>
    rw [assembleItem, assembleBlob] at h
    obtain ⟨blob, hblob, h⟩ := (bind_eq_ok _ _ _).mp h
    obtain ⟨bits, _, hblob⟩ := (bind_eq_ok _ _ _).mp hblob
    cases hblob
    cases h
    exact blob_laidOut file b bits s

/-- Only commands with bits have references. -/
theorem assembleItem_bits_ne_nil (item : Item) (command : Command)
    (h : assembleItem file item = .ok command) (hrefs : command.fragment.builder.refs ≠ []) :
    command.fragment.builder.bits ≠ [] := by
  cases item with
  | instruction line name terms blocks =>
    obtain ⟨e, format, operands, rfl, hencoded⟩ := exists_encodedBy file line name terms blocks _ h
    -- The bits of an instruction start with its opcode, which is not empty.
    have hne := Opcode.instructions_opcode_ne_nil format hencoded.mem
    obtain ⟨⟨rest, hrest⟩, _⟩ := Opcode.Format.decode_encode format operands e
      (Opcode.instructions_fields_proper format hencoded.mem) hencoded.encode_eq
    show e.bits ≠ []
    rw [← hrest]
    simp [hne]
  -- Raw bits have no references.
  | blob b =>
    rw [assembleItem, assembleBlob] at h
    obtain ⟨blob, hblob, h⟩ := (bind_eq_ok _ _ _).mp h
    cases h
    exact absurd rfl hrefs

/-! ## Parts -/

/-- What a part shows and records, in terms of its items and children. -/
structure Part.LaidOut (part : Part) (f : Fragment) (s : Slice) : Prop where
  shown : ∀ item command t, part.ItemAt file s item command t →
    s.cell.Reaches t.cell ∧ ∃ more moreRefs, t.Shows (command.fragment.builder.bits ++ more)
      (command.fragment.builder.refs ++ moreRefs)
  found : ∀ item ∈ part.items, ∃ command t, part.ItemAt file s item command t
  linked : ∀ (i : Nat) t, part.children[i]? = some t →
    ∃ g, t.part.assemble file = .ok g ∧ s.refs[i]? = some g.builder.cell
  records : ∀ c o p, f.dbg.Records s c o p ↔
    (∃ item command t, part.ItemAt file s item command t ∧
      command.fragment.dbg.Records t c o p) ∨
    ∃ (i : Nat) (t : CellTerm) (g : Fragment), part.children[i]? = some t ∧
      t.part.assemble file = .ok g ∧ g.dbg.Records g.builder.cell.toSlice c o p

/-- The item that stands somewhere is the one that was assembled. -/
theorem Part.ItemAt.assembled {part : Part} {s t : Slice} {item : Item} {command : Command}
    (h : part.ItemAt file s item command t) :
    item ∈ part.items ∧ assembleItem file item = .ok command := by
  -- Items and commands correspond by their places, so the command in this place is that of the
  -- item.
  obtain ⟨commands, n, hcommands, hitem, hcommand, _⟩ := h
  obtain ⟨command', hcommand', hassemble⟩ :=
    forall₂_getElem? ((assembleItems_eq_ok file part.items commands).mp hcommands) n item hitem
  rw [hcommand] at hcommand'
  cases hcommand'
  exact ⟨List.mem_of_getElem? hitem, hassemble⟩

/-- A part is laid out when its commands are shown and recorded where they are placed. -/
private theorem laidOut_of_commands (part : Part) (f : Fragment) (s : Slice)
    (commands : List Command) (hcommands : assembleItems file part.items = .ok commands)
    (hplaced : ∀ (n : Nat) (g : Fragment), (commands.map Command.fragment)[n]? = some g →
      ∃ t more moreRefs, s.place ((commands.map Command.fragment).map (·.builder)) n = some t ∧
        t.Shows (g.builder.bits ++ more) (g.builder.refs ++ moreRefs) ∧ s.cell.Reaches t.cell)
    (hlinked : ∀ (i : Nat) t, part.children[i]? = some t →
      ∃ g, t.part.assemble file = .ok g ∧ s.refs[i]? = some g.builder.cell)
    (hrecords : ∀ c o p, f.dbg.Records s c o p ↔
      (∃ (n : Nat) (g : Fragment) (t : Slice), (commands.map Command.fragment)[n]? = some g ∧
        s.place ((commands.map Command.fragment).map (·.builder)) n = some t ∧
        g.dbg.Records t c o p) ∨
      ∃ (i : Nat) (t : CellTerm) (g : Fragment), part.children[i]? = some t ∧
        t.part.assemble file = .ok g ∧ g.dbg.Records g.builder.cell.toSlice c o p) :
    part.LaidOut file f s := by
  have hitems := (assembleItems_eq_ok file part.items commands).mp hcommands
  have hfragment (n : Nat) (command : Command) (hcommand : commands[n]? = some command) :
      (commands.map Command.fragment)[n]? = some command.fragment := by
    rw [List.getElem?_map, hcommand]
    rfl
  rw [List.map_map] at hplaced hrecords
  -- Items and commands have the same places in their lists.
  constructor
  · -- What an item of the part shows is what its command shows.
    intro item command t hitem
    obtain ⟨commands', n, hcommands', _, hcommand, ht⟩ := hitem
    rw [hcommands] at hcommands'
    cases hcommands'
    obtain ⟨t', more, moreRefs, ht', hshows, hreaches⟩ := hplaced n _ (hfragment n command hcommand)
    cases ht.symm.trans ht'
    exact ⟨hreaches, more, moreRefs, hshows⟩
  · -- Every item has a command in its own place, and every command is placed.
    intro item hitem
    obtain ⟨n, hn⟩ := List.mem_iff_getElem?.mp hitem
    obtain ⟨command, hcommand, _⟩ := forall₂_getElem? hitems n item hn
    obtain ⟨t, _, _, ht, _⟩ := hplaced n _ (hfragment n command hcommand)
    exact ⟨command, t, commands, n, hcommands, hn, hcommand, ht⟩
  · exact hlinked
  · -- The records of the commands are those of the items; the children are the same on both sides.
    intro c o p
    rw [hrecords]
    apply or_congr_left
    constructor
    · intro h
      obtain ⟨n, g, t, hg, ht, h⟩ := h
      rw [List.getElem?_map, Option.map_eq_some_iff] at hg
      obtain ⟨command, hcommand, rfl⟩ := hg
      obtain ⟨item, hitem, _⟩ := forall₂_getElem? hitems.flip n command hcommand
      exact ⟨item, command, t, ⟨commands, n, hcommands, hitem, hcommand, ht⟩, h⟩
    · intro h
      obtain ⟨item, command, t, ⟨commands', n, hcommands', _, hcommand, ht⟩, h⟩ := h
      rw [hcommands] at hcommands'
      cases hcommands'
      exact ⟨n, command.fragment, t, hfragment n command hcommand, ht, h⟩

/-- The debug node of a command has a child for each reference. -/
theorem length_children_of_assembleItems (items : List Item) (commands : List Command)
    (hcommands : assembleItems file items = .ok commands) :
    ∀ g ∈ commands.map Command.fragment, g.dbg.children.length = g.builder.refs.length := by
  intro g hg
  -- A command comes from an item that was assembled, and assembling keeps references and children
  -- in step.
  obtain ⟨command, hcommand, rfl⟩ := List.mem_map.mp hg
  obtain ⟨item, _, hitem⟩ := forall₂_mem_right _ _
    ((assembleItems_eq_ok file items commands).mp hcommands) command hcommand
  exact (assembleItem_inStep file item command (fun sub f _ hf => Part.inStep file sub f hf)
    hitem).length_eq

/-- Items are packed in rows. -/
theorem pack_rows (items : List Item) (commands : List Command) (f : Fragment)
    (hcommands : assembleItems file items = .ok commands) (hpack : pack commands = .ok f) :
    Fragment.Rows (commands.map Command.fragment) f := by
  -- Packing writes the commands one after the other to a new chain and folds it.
  obtain ⟨chain, hchain, hroot⟩ := (pack_eq_ok commands f).mp hpack
  refine Chain.rows_of_writes Command.write Command.fragment
    (fun c c' command hlast h => ((Command.write_eq_ok c c' command hlast).mp h).2.2)
    commands ?_ chain f hchain hroot
  -- No command has references without bits, which rows ask for.
  intro command hcommand
  obtain ⟨item, _, hitem⟩ := forall₂_mem_right _ _
    ((assembleItems_eq_ok file items commands).mp hcommands) command hcommand
  exact assembleItem_bits_ne_nil file item command hitem

/-- Code is laid out where it is shown. -/
private theorem code_laidOut (items : List Item) (f : Fragment) (s : Slice)
    (h : (Part.code items).assemble file = .ok f)
    (hs : s.Shows f.builder.bits f.builder.refs) : (Part.code items).LaidOut file f s := by
  obtain ⟨commands, hcommands, hpack⟩ := (bind_eq_ok _ _ _).mp h
  -- Code is packed in rows, and rows place and record their commands. It has no children of its
  -- own.
  have hrows := pack_rows file items commands f hcommands hpack
  have hpaired := length_children_of_assembleItems file items commands hcommands
  refine laidOut_of_commands file _ f s commands hcommands (hrows.placed s hs) nofun ?_
  intro c o p
  rw [hrows.records hpaired s hs, or_iff_left]
  intro hchild
  obtain ⟨i, t, g, hchild, _⟩ := hchild
  cases hchild

/-- Raw bits that are taken over one after the other make a run. -/
private theorem foldl_blobs (raw : List (Bits × Debug.Position)) (run : List Fragment) :
    raw.foldl (fun (f : Fragment) (bits, position) =>
      f.takeOver (Command.blob bits position).fragment) (Fragment.ofRun run) =
    Fragment.ofRun (run ++ raw.map fun blob => (Command.blob blob.1 blob.2).fragment) := by
  -- Induction on the raw bits that are still to be taken over.
  induction raw generalizing run with
  | nil => simp
  | cons blob raw ih =>
    have happend := Fragment.ofRun_append run [(Command.blob blob.1 blob.2).fragment]
    rw [Fragment.ofRun_singleton] at happend
    rw [List.foldl_cons]
    show raw.foldl _ ((Fragment.ofRun run).takeOver (Command.blob blob.1 blob.2).fragment) = _
    rw [← happend, ih, List.append_assoc]
    rfl

/-- A cell that is written out is a run of raw bits with links behind it. -/
theorem assemble_raw_run (line : Nat) (blobs : List Blob) (children : List CellTerm)
    (f : Fragment) (h : (Part.raw line blobs children).assemble file = .ok f) :
    ∃ commands fragments, assembleItems file (blobs.map .blob) = .ok commands ∧
      List.Forall₂ (fun t fragment => t.part.assemble file = .ok fragment) children fragments ∧
      f = fragments.foldl Fragment.linkTo (.ofRun (commands.map Command.fragment)) ∧
      (Fragment.ofRun (commands.map Command.fragment)).builder.refs = [] ∧
      f.builder.bits = (Fragment.ofRun (commands.map Command.fragment)).builder.bits ∧
      f.builder.refs = fragments.map (·.builder.cell) := by
  -- A cell that is written out fits, and its fragment is built from the bits and the links.
  obtain ⟨raw, fragments, hraw, hfragments, _, _, rfl⟩ :=
    (Part.assemble_raw_eq_ok file line blobs children f).mp h
  have hbuilder := (rawFragment_parts raw fragments).1
  refine ⟨raw.map fun blob => .blob blob.1 blob.2, fragments, ?_, hfragments, ?_, ?_, ?_, ?_⟩
  · rw [assembleItems_blobs, (mapM_eq_ok _ _ _).mpr hraw]
    rfl
  · -- The bits come one after the other into an empty fragment, which makes them a run.
    rw [rawFragment, show Fragment.empty = .ofRun [] from rfl, foldl_blobs, List.nil_append,
      List.map_map]
    rfl
  · -- None of them has references.
    simp [Fragment.ofRun, Command.fragment, List.flatMap_map, List.flatMap_eq_nil_iff]
  · rw [hbuilder]
    simp [Fragment.ofRun, Command.fragment, List.flatMap_map]
  · rw [hbuilder]

/-- A cell that is written out is laid out where it is shown. -/
private theorem raw_laidOut (line : Nat) (blobs : List Blob) (children : List CellTerm)
    (f : Fragment) (s : Slice) (h : (Part.raw line blobs children).assemble file = .ok f)
    (hs : s.Shows f.builder.bits f.builder.refs) :
    (Part.raw line blobs children).LaidOut file f s := by
  obtain ⟨commands, fragments, hcommands, hfragments, hf, hnoRefs, hbits, hrefs⟩ :=
    assemble_raw_run file line blobs children f h
  have hpaired := length_children_of_assembleItems file _ _ hcommands
  generalize hall : commands.map Command.fragment = run at *
  -- Raw bits bring no references, so the links count from the first reference on.
  have hrun : s.Shows ((Fragment.ofRun run).builder.bits ++ [])
      ((Fragment.ofRun run).builder.refs ++ fragments.map (·.builder.cell)) := by
    rwa [List.append_nil, hnoRefs, List.nil_append, ← hbits, ← hrefs]
  have href (i : Nat) (g : Fragment) (hg : fragments[i]? = some g) :
      s.refs[i]? = some g.builder.cell := by
    rw [hrun.refs_eq, hnoRefs, List.nil_append, List.getElem?_map, hg]
    rfl
  refine laidOut_of_commands file _ _ s commands hcommands ?_ ?_ ?_
  · -- The bits stand where the run has them.
    intro n g hg
    rw [hall] at hg ⊢
    obtain ⟨more, moreRefs, hshows⟩ := Fragment.shows_run n g hg hrun
    have hplace := Fragment.place_run [] n g hg hrun
    rw [List.append_nil] at hplace
    exact ⟨_, more, moreRefs, hplace, hshows, .self _⟩
  · -- A child is linked to by the reference in its place.
    intro i t ht
    obtain ⟨g, hg, hassemble⟩ := forall₂_getElem? hfragments i t ht
    exact ⟨g, hassemble, href i g hg⟩
  · -- The run records its bits, and each link what its child records.
    intro c o p
    have hrecords := Fragment.records_run [] hpaired hrun c o p
    rw [List.append_nil] at hrecords
    rw [hf, Fragment.records_foldl_linkTo s c o p _ fragments
      (Fragment.length_children_ofRun run hpaired), hrecords, hnoRefs, hall]
    apply or_congr_right
    constructor
    · -- A link leads to the cell of its fragment, and the fragments correspond to the children by
      -- their places.
      intro h
      obtain ⟨i, g, r, hg, hr, h⟩ := h
      obtain ⟨t, ht, hassemble⟩ := forall₂_getElem? hfragments.flip i g hg
      rw [List.length_nil, Nat.zero_add, href i g hg] at hr
      cases hr
      exact ⟨i, t, g, ht, hassemble, h⟩
    · intro h
      obtain ⟨i, t, g, ht, hassemble, h⟩ := h
      obtain ⟨g', hg', hassemble'⟩ := forall₂_getElem? hfragments i t ht
      rw [hassemble] at hassemble'
      cases hassemble'
      exact ⟨i, g, _, hg', by rw [List.length_nil, Nat.zero_add, href i g hg'], h⟩

/-- Parts are laid out where they are shown. -/
theorem Part.laidOut (part : Part) (f : Fragment) (s : Slice) (h : part.assemble file = .ok f)
    -- By the kind of part.
    (hs : s.Shows f.builder.bits f.builder.refs) : part.LaidOut file f s := by
  cases part with
  | code items => exact code_laidOut file items f s h hs
  | raw line blobs children => exact raw_laidOut file line blobs children f s h hs

theorem Part.LaidOut.item {part : Part} {f : Fragment} {s t : Slice} {item : Item}
    {command : Command} (h : part.LaidOut file f s) (hat : part.ItemAt file s item command t) :
    -- The item is shown where it stands, so it is laid out there.
    item.LaidOut file command t := by
  obtain ⟨_, more, moreRefs, hshows⟩ := h.shown item command t hat
  exact assembleItem_laidOut file item command t more moreRefs (hat.assembled file).2 hshows

end CellCode.Listing
