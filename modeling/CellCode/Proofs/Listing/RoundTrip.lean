import CellCode.Listing.Disassemble
import CellCode.Proofs.Listing.Rules
import CellCode.Proofs.Program.Marking

/-!
# Listings of assembled cells give the same cells

A source that keeps to the rules is assembled, its cell is printed, and the listing is assembled
again: this gives the same cell. Printing fails only if the keys of a jump table cannot be
resolved.
-/

namespace CellCode.Listing

/-- What the operands of a jump table's instruction look like in a store. -/
private theorem operands_of_table {holds : Program → CodeId → Prop} {has : Cell → Prop}
    (i : Program.Instruction) (j : Instruction CodeId) (c : Cell) (hij : i.Is holds j)
    (htable : i.TakesTable has) (hc : .cell c ∈ j.operands) :
    ∃ width, keyWidth? j = some width ∧ 0 ≤ width ∧ Dictionary.Tree has width.toNat c := by
  obtain ⟨width, c', hoperands, hwidth, htree⟩ := htable
  have his := hij.operands
  rw [hoperands] at his
  generalize hos : j.operands.filter (!·.isMarker) = os at his
  obtain rfl : os = [.integer width, .cell c'] := by
    -- A jump table takes a width and a cell, and nothing else.
    cases his with
    | cons hfirst hrest =>
      cases hrest with
      | cons hsecond hnil =>
        cases hnil
        cases hfirst
        cases hsecond
        rfl
  refine ⟨width, ?_, hwidth, ?_⟩
  · rw [keyWidth?, ← List.head?_filterMap, filterMap_unmarked _ rfl, hos]
    rfl
  · have hmem : .cell c ∈ j.operands.filter (!·.isMarker) := List.mem_filter.mpr ⟨hc, rfl⟩
    rw [hos] at hmem
    obtain rfl : c = c' := by simpa using hmem
    exact htree

/-- The cells of an instruction are printed as text that builds them again. -/
private theorem cellText_gives (store : CodeStore) (id : CodeId) (q : Program)
    (hholds : store.Holds id q) (htabled : q.Tabled IsCode)
    (hmarks : Code.MarksTables (store.get id)) (j : Instruction CodeId) (hj : j ∈ store.get id)
    (c : Cell) (hc : .cell c ∈ j.operands) (hmakeable : c.Makeable)
    (hdistinct : c.DistinctDigests) (pad : String) (hpad : ∀ ch ∈ pad.toList, ch = ' ') :
    Print.Gives (tablePrinter false j c pad) (ReadsAsCell (Built · c)) Unresolved := by
  cases hmarked : j.isMarked with
  | true =>
    -- Where there is a mark the next instruction jumps, so the program has a table there.
    obtain ⟨i, next, hpair, hij, hconstant, hjump⟩ := Code.MarksTables.of_mem
      Program.Instruction.name (fun _ _ h => h.name_eq) q _ ((store.holds_iff id q).mp hholds)
      hmarks j hj hmarked
    obtain ⟨width, hkey, hwidth, htree⟩ :=
      operands_of_table i j c hij (htabled i next hpair hconstant hjump) hc
    exact tablePrinter_gives j c pad width hpad hmarked hkey hwidth htree hdistinct hmakeable
  | false =>
    rw [tablePrinter, hmarked, if_neg Bool.false_ne_true]
    exact .pure _ _ ((readsAsCell_literal pad c hpad).imp fun t ht => ht.built t c hmakeable)

/-- Below a cell there are no more digests than in it. -/
private theorem distinctDigests_of_reaches (root c : Cell) (h : root.DistinctDigests)
    (hc : root.Reaches c) : c.DistinctDigests := by
  have htrans (d e : Cell) (hd : root.Reaches d) (he : d.Reaches e) : root.Reaches e := by
    induction he with
    | self => exact hd
    | ref hmem _ ih => exact ih (hd.refs _ hmem)
  intro d e hd he
  exact h d e (htrans c d hc hd) (htrans c e hc he)

/-- The listing of a cell that was assembled from an orderly program is read as items that spell
    this program. -/
private theorem disassemble_of_orderly (p : Program) (f : Fragment) (h : Orderly p f)
    (hmakeable : f.builder.cell.Makeable) (hdistinct : f.builder.cell.DistinctDigests) :
    (∃ text, disassemble f.builder.cell.toSlice false = .ok text ∧
      ReadsAsItems (Spells Built · p) text) ∨
    ∃ e, disassemble f.builder.cell.toSlice false =
      .error (.print (.jumpTable (.resolution e))) := by
  -- The cell decodes to the program, and the store it is loaded into holds it.
  have hdecodes := h.assembles.decodes p f _ h.wellKinded (Slice.shows_cell f.builder)
  obtain ⟨store, root, hload, hloaded, hholds⟩ := hdecodes.load _ false p nofun
  have hmarked := store.markJumpTables_marked root hloaded.unmarked
  have hrefs := Slice.refs_toSlice f.builder.cell
  have hgives : Print.Gives (printCode false (store.markJumpTables root).1 root "")
      (ReadsAsItems (Spells Built · p)) Unresolved := by
    refine printCodeTo_gives _ _ _ root p "" nofun (hmarked.ordered (hloaded.ordered rfl))
      (by rw [hmarked.size_eq]; exact hloaded.root_lt)
      (Nat.lt_of_lt_of_le (Nat.lt_succ_self _) (Nat.le_add_left _ _))
      (hmarked.holds root p hholds) (fun q => hdecodes.printable _ p q) ?_
    intro q id hq hq' j hj c hc pad hpad
    -- The cells of the program are cells of the tree that was assembled.
    obtain ⟨i, hi, hcell⟩ := hq'.cell _ id q j hj c hc
    have hreaches := hdecodes.cells _ p q f.builder.cell.Reaches (fun _ hc => hc.refs)
      (by rw [hrefs]; exact fun r hr => .ref hr (.self r)) hq i hi c hcell
    have hcell := hdecodes.cells _ p q Cell.Makeable (fun _ hc => hc.refs)
      (by rw [hrefs]; exact hmakeable.refs) hq i hi c hcell
    exact cellText_gives _ id q hq' (h.tabled q hq) (hmarked.marks id) j hj c hc hcell
      (distinctDigests_of_reaches _ c hdistinct hreaches) pad hpad
  simp only [disassemble, hload]
  rcases hgives ∅ with ⟨text, printed, hprint, hreads⟩ | ⟨_, printed, hprint, e, rfl⟩
  · exact .inl ⟨text, by rw [hprint], hreads⟩
  · exact .inr ⟨e, by rw [hprint]⟩

/-- The listing of a cell that was assembled from a source which keeps to the rules is accepted,
    and assembled into the same cell. There is no listing only where the keys of a jump table
    cannot be resolved. -/
theorem assemble_disassemble_of_obeys (source file : String) (items : List Item) (cell : Cell)
    (map : Debug.Map) (hparse : parse (lex source) = .ok items) (hrules : Obeys items)
    (hassemble : assemble source file = .ok (cell, map)) (hdistinct : cell.DistinctDigests) :
    (∃ text, disassemble cell.toSlice false = .ok text ∧
      ∀ file', ∃ map', assemble text file' = .ok (cell, map')) ∨
    ∃ e, disassemble cell.toSlice false = .error (.print (.jumpTable (.resolution e))) := by
  obtain ⟨items', f, hparse', hf, hbuild⟩ := (assemble_eq_ok file source _).mp hassemble
  cases hparse.symm.trans hparse'
  obtain ⟨hbuildable, hcell, _⟩ := (f.build_eq_ok _).mp hbuild
  obtain rfl : cell = f.builder.cell := hcell
  have hmakeable :=
    Cell.makeable_of_buildable hbuildable (assembleItems_inCapacity file items f hf)
  obtain ⟨p, hp⟩ := hrules.program file items f hf
  rcases disassemble_of_orderly p f hp hmakeable hdistinct with
    ⟨text, htext, hreads⟩ | herror
  · -- The listing is read as items that spell the program, and these make the same cells.
    refine .inl ⟨text, htext, ?_⟩
    intro file'
    obtain ⟨items', hparse', hspells⟩ := parse_of_readsAsItems _ text hreads
    obtain ⟨f', hf', hbuilder, haligned⟩ :=
      hspells.assembles_again file' items' p f hp.assembles
    -- What was built from the source is built again.
    obtain ⟨map', hmap'⟩ := haligned.inStep.build (hbuilder ▸ hbuildable)
    rw [hbuilder] at hmap'
    exact ⟨map', (assemble_eq_ok file' text _).mpr ⟨items', f', hparse', hf', hmap'⟩⟩
  · exact .inr herror

/-! ## A jump table with two methods -/

/-- A source that jumps through a dictionary; the second method has a cell. -/
def jumpSource : String :=
  "DICTPUSHCONST 1, .dict \x7b\n" ++
  "  0 => \x7b ADD \x7d\n" ++
  "  1 => \x7b PUSHREF .cell \x7b .blob xC_ \x7d \x7d\n" ++
  "\x7d\n" ++
  "DICTUGETJMP\n"

/-- The items of `jumpSource`. -/
def jumpItems : List Item := [
  .instruction 1 "DICTPUSHCONST" [.integer 1, .dict 1 [
    (0, [.instruction 2 "ADD" [] []]),
    (1, [.instruction 3 "PUSHREF" [.cell (.raw 3 [⟨3, "xC_"⟩] [])] []])]] [],
  .instruction 5 "DICTUGETJMP" [] []]

private def firstMethod : Cell := .data (false :: false :: Opcode.hexBits "A0")

private def secondMethod : Cell := .mk (false :: false :: Opcode.hexBits "88") [.data [true]]

private def jumpTable : Cell := .mk [false, false] [firstMethod, secondMethod]

/-- What `jumpItems` are assembled into. -/
def jumpFragment : Fragment where
  builder := ⟨Opcode.hexBits "F4A401F4A1", [jumpTable]⟩
  dbg := .mk [(0, ⟨"main", 1⟩), (24, ⟨"main", 5⟩)] [.empty]

private theorem parse_jumpSource : parse (lex jumpSource) = .ok jumpItems := by cbv

private theorem assemble_jumpItems :
    (assembleItems "main" jumpItems >>= pack) = .ok jumpFragment := by cbv

private theorem build_jumpFragment :
    ∃ map, jumpFragment.build = .ok (jumpFragment.builder.cell, map) :=
  ⟨_, rfl⟩

private theorem distinctDigests_jumpFragment : jumpFragment.builder.cell.DistinctDigests :=
  Cell.distinctDigests_of_closed _
    [jumpFragment.builder.cell, jumpTable, firstMethod, secondMethod, .data [true]]
    (by decide +kernel) (by decide +kernel) (by decide +kernel)

/-- A code of one instruction jumps through nothing. -/
private theorem obeys_singleton (item : Item) (h : item.Obeys Obeys) : Obeys [item] := by
  refine .intro Obeys (fun _ h => h) ?_ ?_
  · intro other hother
    rwa [List.mem_singleton.mp hother]
  · intro first second hpair
    have hlength := hpair.length_le
    simp at hlength

private theorem obeys_jumpItems : Obeys jumpItems := by
  have hfirst : Obeys [.instruction 2 "ADD" [] []] :=
    obeys_singleton _ (.instruction 2 "ADD" [] [] nofun nofun)
  have hsecond : Obeys [.instruction 3 "PUSHREF" [.cell (.raw 3 [⟨3, "xC_"⟩] [])] []] := by
    refine obeys_singleton _ (.instruction _ _ _ _ ?_ nofun)
    intro t ht
    rw [List.mem_singleton.mp ht]
    exact .cell _ (by decide)
  refine .intro Obeys (fun _ h => h) ?_ ?_
  · -- The first instruction has the dictionary.
    simp only [jumpItems, List.forall_mem_cons]
    refine ⟨.instruction _ _ _ _ ?_ nofun, .instruction _ _ _ _ nofun nofun, nofun⟩
    simp only [List.forall_mem_cons]
    refine ⟨.integer 1, .dict _ _ ?_, nofun⟩
    simp only [List.forall_mem_cons]
    exact ⟨hfirst, hsecond, nofun⟩
  · -- It stands directly in front of the jump.
    intro item next hpair _ _
    cases hpair.eq_of_length rfl
    exact ⟨1, _, List.mem_cons_of_mem _ List.mem_cons_self⟩

/-- The listing of `jumpSource` shows both methods in their places. -/
theorem assemble_disassemble_of_jumpSource :
    parse (lex jumpSource) = .ok jumpItems ∧ Obeys jumpItems ∧
      jumpFragment.builder.cell.DistinctDigests ∧
      ∃ map, assemble jumpSource "main" = .ok (jumpFragment.builder.cell, map) ∧
        ((∃ text, disassemble jumpFragment.builder.cell.toSlice false = .ok text ∧
          ∀ file', ∃ map', assemble text file' = .ok (jumpFragment.builder.cell, map')) ∨
        ∃ e, disassemble jumpFragment.builder.cell.toSlice false =
          .error (.print (.jumpTable (.resolution e)))) := by
  obtain ⟨map, hmap⟩ := build_jumpFragment
  have hassemble : assemble jumpSource "main" = .ok (jumpFragment.builder.cell, map) :=
    (assemble_eq_ok "main" jumpSource _).mpr
      ⟨jumpItems, jumpFragment, parse_jumpSource, assemble_jumpItems, hmap⟩
  exact ⟨parse_jumpSource, obeys_jumpItems, distinctDigests_jumpFragment, map, hassemble,
    assemble_disassemble_of_obeys jumpSource "main" jumpItems _ map parse_jumpSource obeys_jumpItems
      hassemble distinctDigests_jumpFragment⟩

end CellCode.Listing
