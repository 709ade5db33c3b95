import CellCode.Proofs.Listing.Layout

/-!
# Where the items of a listing start

Every item of a listing outside dictionaries has a place in the assembled tree, which follows from
how the listing is laid out and not from debug nodes. The debug map has an entry exactly at these
starts, with the line of an item that starts there. An empty blob starts where the next item does,
so there can be more than one.

* `Part.Stands`          the starts of a part, wherever it stands
* `Part.Writes`          what is written in a part
* `Part.records_iff`     debug nodes record exactly the starts
* `assemble_map_exact`   so does the debug map
-/

namespace CellCode.Listing

/-- A place at which the encoded bits of an item start. -/
structure Start where
  line : Nat
  bits : Bits
  cell : Cell
  offset : Nat

namespace Part

variable (file : String)

/-- Something starts in a part at the slice. -/
inductive Stands : Part → Slice → Start → Prop
  | item {part : Part} {s t : Slice} {item : Item} {command : Command}
      (item_at : part.ItemAt file s item command t) :
      Stands part s ⟨item.line, command.fragment.builder.bits, t.cell, t.bitPos⟩
  | nested {part sub : Part} {s t u : Slice} {item : Item} {command : Command} {start : Start}
      (item_at : part.ItemAt file s item command t) (nests : item.Nests file t sub u)
      (inside : Stands sub u start) : Stands part s start
  | child {part : Part} {s : Slice} {i : Nat} {t : CellTerm} {r : Cell} {start : Start}
      (child_at : part.children[i]? = some t) (ref_at : s.refs[i]? = some r)
      (inside : Stands t.part r.toSlice start) : Stands part s start

/-- Outside dictionaries, a part has an item on the line that is encoded in these bits. -/
inductive Writes : Part → (line : Nat) → Bits → Prop
  | item {part : Part} {item : Item} {command : Command} (mem : item ∈ part.items)
      (assembled : assembleItem file item = .ok command) :
      Writes part item.line command.fragment.builder.bits
  | nested {part : Part} {item : Item} {t : CellTerm} {line : Nat} {bits : Bits}
      (mem : item ∈ part.items) (term_mem : .cell t ∈ item.terms)
      (inside : Writes t.part line bits) : Writes part line bits
  | child {part : Part} {t : CellTerm} {line : Nat} {bits : Bits} (mem : t ∈ part.children)
      (inside : Writes t.part line bits) : Writes part line bits

end Part

variable (file : String)

/-- An item nests only parts that it has. -/
theorem Item.Nests.has {item : Item} {s u : Slice} {sub : Part} (h : item.Nests file s sub u) :
    item.Has sub := by
  cases h with
  -- The nested part is a term of the item, which is then no blob.
  | @intro _ _ _ _ i t _ _ _ _ _ term_at _ =>
    cases item with
    | blob b => cases term_at
    | instruction line name terms blocks =>
      exact .intro line name terms blocks _ _ (List.mem_of_getElem? term_at) (.cell t)

/-- What is shown of a part from the parts of its items and from its children holds of all
    parts. -/
theorem Part.induct_items (motive : Part → Prop)
    (h : ∀ part : Part, (∀ item ∈ part.items, ∀ sub, item.Has sub → motive sub) →
      -- The items of code and those of a cell that is written out are treated alike; the latter
      -- nest nothing.
      (∀ t ∈ part.children, motive t.part) → motive part) (part : Part) : motive part := by
  apply Part.induct motive
  · intro items hitems
    exact h (.code items) hitems nofun
  · intro line blobs children hchildren
    refine h (.raw line blobs children) ?_ hchildren
    intro item hitem sub hsub
    obtain ⟨b, _, rfl⟩ := List.mem_map.mp hitem
    cases hsub

/-- Debug nodes record exactly the starts. -/
theorem Part.records_iff (part : Part) (f : Fragment) (s : Slice)
    (h : part.assemble file = .ok f) (hs : s.Shows f.builder.bits f.builder.refs) (c : Cell)
    (o : Int) (p : Debug.Position) :
    f.dbg.Records s c o p ↔ ∃ start, part.Stands file s start ∧ start.cell = c ∧
      (start.offset : Int) = o ∧ p = ⟨file, start.line⟩ := by
  revert f s
  refine Part.induct_items (fun part => ∀ f s, part.assemble file = .ok f →
    s.Shows f.builder.bits f.builder.refs → (f.dbg.Records s c o p ↔ ∃ start,
      part.Stands file s start ∧ start.cell = c ∧ (start.offset : Int) = o ∧
        p = ⟨file, start.line⟩)) ?_ part
  intro part hitems hchildren f s h hs
  -- How the part is laid out says where its items and children stand.
  have hpart := part.laidOut file f s h hs
  have hitem {item : Item} {command : Command} {t : Slice}
      (hat : part.ItemAt file s item command t) : item.LaidOut file command t :=
    hpart.item file hat
  rw [hpart.records]
  constructor
  · intro hrecords
    -- What is recorded is the start of an item itself, something in an item, or in a child.
    -- In each case the start is found by induction in the part that records it.
    rcases hrecords with ⟨item, command, t, hat, hrecords⟩ | ⟨i, t, g, ht, hg, hrecords⟩
    · rcases ((hitem hat).records c o p).mp hrecords with
        ⟨rfl, rfl, rfl⟩ | ⟨sub, u, g, hsub, hg, hrecords⟩
      · exact ⟨_, .item hat, rfl, rfl, rfl⟩
      · obtain ⟨g', hg', hu, _⟩ := (hitem hat).shown sub u hsub
        rw [hg] at hg'
        cases hg'
        obtain ⟨start, hstart, hat'⟩ := (hitems item (hat.assembled file).1 sub (hsub.has file) g u
          hg hu).mp hrecords
        exact ⟨start, .nested hat hsub hstart, hat'⟩
    · obtain ⟨g', hg', href⟩ := hpart.linked i t ht
      rw [hg] at hg'
      cases hg'
      obtain ⟨start, hstart, hat⟩ := (hchildren t (List.mem_of_getElem? ht) g _ hg
        (Slice.shows_cell g.builder)).mp hrecords
      exact ⟨start, .child ht href hstart, hat⟩
  · intro hstarts
    obtain ⟨start, hstart, rfl, rfl, rfl⟩ := hstarts
    -- The other way round, each kind of start is recorded by the node that it belongs to.
    cases hstart with
    | @item _ _ t item command hat =>
      exact .inl ⟨item, command, t, hat, ((hitem hat).records _ _ _).mpr (.inl ⟨rfl, rfl, rfl⟩)⟩
    | @nested _ sub _ t u item command _ hat hsub inside =>
      obtain ⟨g, hg, hu, _⟩ := (hitem hat).shown sub u hsub
      have hrecords := (hitems item (hat.assembled file).1 sub (hsub.has file) g u hg hu).mpr
        ⟨start, inside, rfl, rfl, rfl⟩
      exact .inl ⟨item, command, t, hat,
        ((hitem hat).records _ _ _).mpr (.inr ⟨sub, u, g, hsub, hg, hrecords⟩)⟩
    | @child _ _ i t r _ child_at ref_at inside =>
      obtain ⟨g, hg, href⟩ := hpart.linked i t child_at
      rw [ref_at] at href
      cases href
      exact .inr ⟨i, t, g, child_at, hg, (hchildren t (List.mem_of_getElem? child_at) g _ hg
        (Slice.shows_cell g.builder)).mpr ⟨start, inside, rfl, rfl, rfl⟩⟩

/-- Where something starts, its bits stand, in a cell of the tree. -/
theorem Part.Stands.shown {part : Part} {s : Slice} {start : Start}
    (h : part.Stands file s start) (f : Fragment) (hf : part.assemble file = .ok f)
    (hs : s.Shows f.builder.bits f.builder.refs) :
    s.cell.Reaches start.cell ∧ start.bits <+: start.cell.bits.drop start.offset := by
  -- Induction on the start: an item shows its bits, and what it nests stands in a cell below.
  induction h generalizing f with
  | @item part s t item command hat =>
    obtain ⟨hreaches, more, moreRefs, hshows⟩ := (part.laidOut file f s hf hs).shown _ _ _ hat
    refine ⟨hreaches, ?_⟩
    have hfront : command.fragment.builder.bits <+: t.data := ⟨more, hshows.data_eq.symm⟩
    exact hfront.trans (List.take_prefix _ _)
  | @nested part sub s t u item command start hat nests _ ih =>
    have hpart := part.laidOut file f s hf hs
    obtain ⟨g, hg, hu, hreaches⟩ := (hpart.item file hat).shown sub u nests
    obtain ⟨hbelow, hbits⟩ := ih g hg hu
    exact ⟨(hpart.shown _ _ _ hat).1.trans (hreaches.trans hbelow), hbits⟩
  | @child part s i t r start child_at ref_at _ ih =>
    obtain ⟨g, hg, href⟩ := (part.laidOut file f s hf hs).linked i t child_at
    rw [ref_at] at href
    cases href
    obtain ⟨hbelow, hbits⟩ := ih g hg (Slice.shows_cell g.builder)
    exact ⟨(s.reaches_of_mem_refs _ (List.mem_of_getElem? ref_at)).trans hbelow, hbits⟩

/-- What starts somewhere is written in the listing. -/
theorem Part.Stands.writes {part : Part} {s : Slice} {start : Start}
    (h : part.Stands file s start) : part.Writes file start.line start.bits := by
  -- Induction on the start.
  induction h with
  | item hat => exact .item (hat.assembled file).1 (hat.assembled file).2
  | nested hat nests _ ih =>
    cases nests with
    | intro _ _ _ term_at => exact .nested (hat.assembled file).1 (List.mem_of_getElem? term_at) ih
  | child child_at _ _ ih => exact .child (List.mem_of_getElem? child_at) ih

/-- What is written in the listing outside dictionaries starts somewhere. -/
theorem Part.Writes.stands {part : Part} {line : Nat} {bits : Bits}
    (h : part.Writes file line bits) (f : Fragment) (s : Slice) (hf : part.assemble file = .ok f)
    (hs : s.Shows f.builder.bits f.builder.refs) :
    ∃ cell offset, part.Stands file s ⟨line, bits, cell, offset⟩ := by
  -- Induction on what is written: the layout gives each item and child its place.
  induction h generalizing f s with
  | @item part item command mem assembled =>
    obtain ⟨command', t, hat⟩ := (part.laidOut file f s hf hs).found item mem
    -- The item is assembled into one command only.
    have hsame := (hat.assembled file).2
    rw [assembled] at hsame
    cases hsame
    exact ⟨t.cell, t.bitPos, .item hat⟩
  | @nested part item t line bits mem term_mem _ ih =>
    have hpart := part.laidOut file f s hf hs
    -- The item stands somewhere, and so does the cell that is its operand.
    obtain ⟨command, v, hat⟩ := hpart.found item mem
    obtain ⟨u, hu⟩ := (hpart.item file hat).found t term_mem
    obtain ⟨g, hg, hshows, _⟩ := (hpart.item file hat).shown _ u hu
    obtain ⟨cell, offset, hstands⟩ := ih g u hg hshows
    exact ⟨cell, offset, .nested hat hu hstands⟩
  | @child part t line bits mem _ ih =>
    obtain ⟨i, hi⟩ := List.mem_iff_getElem?.mp mem
    obtain ⟨g, hg, href⟩ := (part.laidOut file f s hf hs).linked i t hi
    obtain ⟨cell, offset, hstands⟩ := ih g _ hg (Slice.shows_cell g.builder)
    exact ⟨cell, offset, .child hi href hstands⟩

/-! ## Debug maps -/

/-- The map has the starts of code in a tree of cells, and nothing else. -/
structure MapsStarts (items : List Item) (root : Cell) (map : Debug.Map) : Prop where
  /-- Starts are in the tree, and the encoded bits of the item stand there. -/
  shown : ∀ start, (Part.code items).Stands file root.toSlice start →
    root.Reaches start.cell ∧ start.bits <+: start.cell.bits.drop start.offset
  /-- All items outside dictionaries start somewhere, and no others. -/
  written : ∀ line bits, (Part.code items).Writes file line bits ↔
    ∃ cell offset, (Part.code items).Stands file root.toSlice ⟨line, bits, cell, offset⟩
  /-- There is an entry exactly where something starts. -/
  entry : ∀ hash offset, (map.get? hash offset).isSome ↔
    ∃ start, (Part.code items).Stands file root.toSlice start ∧ start.cell.hash = hash ∧
      (start.offset : Int) = offset
  /-- An entry is the position of an item that starts there. -/
  position : ∀ hash offset p, map.get? hash offset = some p →
    ∃ start, (Part.code items).Stands file root.toSlice start ∧ start.cell.hash = hash ∧
      (start.offset : Int) = offset ∧ p = ⟨file, start.line⟩

/-- The debug map of an assembled listing has exactly the starts of its items. -/
theorem assemble_map_exact (source file : String) (root : Cell) (map : Debug.Map)
    (h : assemble source file = .ok (root, map)) :
    ∃ items, parse (lex source) = .ok items ∧ MapsStarts file items root map := by
  obtain ⟨items, f, hparse, hf, hbuild⟩ := (assemble_eq_ok file source _).mp h
  obtain ⟨_, hcell, hmap⟩ := (f.build_eq_ok _).mp hbuild
  obtain rfl : root = f.builder.cell := hcell
  have hpart : (Part.code items).assemble file = .ok f := hf
  have hs := Slice.shows_cell f.builder
  -- The map of the root has what its debug node records.
  have hexact := Debug.Map.ofCell_exact _ _ _ hmap
  have hrecords (c : Cell) (o : Int) (p : Debug.Position) :=
    (Part.code items).records_iff file f _ hpart hs c o p
  -- The map has what the nodes record, and those record the starts of the items.
  refine ⟨items, hparse, ?_, ?_, ?_, ?_⟩
  · -- A start shows its bits, since the part is shown by the slice of the root.
    intro start hstart
    exact hstart.shown file f hpart hs
  · intro line bits
    constructor
    · intro hwrites
      exact hwrites.stands file f _ hpart hs
    · intro hstands
      obtain ⟨cell, offset, hstands⟩ := hstands
      exact hstands.writes file
  · -- An entry comes from a record, and a record from a start; both ways round.
    intro hash offset
    constructor
    · intro hsome
      obtain ⟨p, hp⟩ := Option.isSome_iff_exists.mp hsome
      obtain ⟨c, hc, rfl⟩ := hexact.sound hash offset p hp
      obtain ⟨start, hstart, rfl, hoffset, _⟩ := (hrecords c offset p).mp hc
      exact ⟨start, hstart, rfl, hoffset⟩
    · intro hstart
      obtain ⟨start, hstart, rfl, rfl⟩ := hstart
      exact hexact.complete _ _ ⟨file, start.line⟩
        ⟨start.cell, (hrecords _ _ _).mpr ⟨start, hstart, rfl, rfl, rfl⟩, rfl⟩
  · -- The position of an entry is the one that was recorded.
    intro hash offset p hp
    obtain ⟨c, hc, rfl⟩ := hexact.sound hash offset p hp
    obtain ⟨start, hstart, rfl, hoffset, hline⟩ := (hrecords c offset p).mp hc
    exact ⟨start, hstart, rfl, hoffset, hline⟩

/-! ## A listing with code in code and cells in cells -/

/-- A source in which an empty blob stands before an instruction with a cell. -/
def nestedSource : String :=
  "PUSHCONT \x7b\n" ++
  "  CALLREF \x7b INC \x7d\n" ++
  "\x7d\n" ++
  ".blob x8_\n" ++
  "PUSHREF .cell \x7b .blob xC_ \x7d\n"

private def nestedItems : List Item := [
  .instruction 1 "PUSHCONT" [] [[.instruction 2 "CALLREF" [] [[.instruction 2 "INC" [] []]]]],
  .blob ⟨4, "x8_"⟩,
  .instruction 5 "PUSHREF" [.cell (.raw 5 [⟨5, "xC_"⟩] [])] []]

/-- What the source is assembled into. -/
def nestedFragment : Fragment where
  builder := ⟨Opcode.hexBits "8E82DB3C88", [.data (Opcode.hexBits "A4"), .data [true]]⟩
  dbg := .mk [(0, ⟨"main", 1⟩), (16, ⟨"main", 2⟩), (32, ⟨"main", 4⟩), (32, ⟨"main", 5⟩)]
    [.mk [(0, ⟨"main", 2⟩)] [], .mk [(0, ⟨"main", 5⟩)] []]

/-- The source is parsed into these items. -/
private theorem parse_nestedSource : parse (lex nestedSource) = .ok nestedItems := by cbv

/-- The items are assembled into this fragment. -/
private theorem assemble_nestedItems :
    (assembleItems "main" nestedItems >>= pack) = .ok nestedFragment := by cbv

/-- The map of `nestedSource` has its starts. -/
theorem assemble_map_exact_nestedSource :
    ∃ map, assemble nestedSource "main" = .ok (nestedFragment.builder.cell, map) ∧
      ∃ items, parse (lex nestedSource) = .ok items ∧
        MapsStarts "main" items nestedFragment.builder.cell map := by
  obtain ⟨map, hmap⟩ : ∃ map, nestedFragment.build = .ok (nestedFragment.builder.cell, map) :=
    ⟨_, rfl⟩
  have hassemble : assemble nestedSource "main" = .ok (nestedFragment.builder.cell, map) :=
    (assemble_eq_ok "main" nestedSource _).mpr
      ⟨nestedItems, nestedFragment, parse_nestedSource, assemble_nestedItems, hmap⟩
  exact ⟨map, hassemble, assemble_map_exact nestedSource "main" _ map hassemble⟩

end CellCode.Listing
