import CellCode.Listing.Disassemble
import CellCode.Proofs.Debug.Covering
import CellCode.Proofs.Listing.Acceptance
import CellCode.Proofs.Listing.Printing
import CellCode.Proofs.Program.Assembling
import CellCode.Proofs.Program.Marking

/-!
# Printed programs are assembled again

Items that spell a program are assembled into this program, if they are accepted. So a listing
that was printed from any cells, in whatever way they encode and split the program, stands for
the program and not for the cells.
-/

namespace CellCode

/-! ## Items that spell a program -/

namespace Listing

variable (file : String) {writes : CellTerm → Cell → Prop}

/-- A term that spells an operand is assembled into it. -/
private theorem Term.Spells.given {same : Program → Fragment → Prop}
    (hwrites : ∀ t c f, writes t c → assembleCell file t = .ok f → f.builder.cell = c)
    (t : Term) (p : Program.Operand) (argument : Argument) (h : t.Spells writes p)
    (hargument : assembleTerm file t = .ok argument) :
    ∃ o, argument = .operand o ∧ p.Given same o := by
  -- The rule by which the term spells the operand is the one by which it is assembled.
  cases h with
  | integer v =>
    rw [assembleTerm] at hargument
    cases hargument
    exact ⟨_, rfl, .integer v⟩
  | stack n =>
    rw [assembleTerm] at hargument
    cases hargument
    exact ⟨_, rfl, .stack n⟩
  | control n =>
    rw [assembleTerm] at hargument
    cases hargument
    exact ⟨_, rfl, .control n⟩
  | bits literal b hb =>
    rw [assembleTerm, hb] at hargument
    cases hargument
    exact ⟨_, rfl, .bits b⟩
  | cell t c ht =>
    rw [assembleTerm] at hargument
    obtain ⟨f, hf, hargument⟩ := (bind_eq_ok _ _ _).mp hargument
    cases hargument
    obtain rfl := hwrites t c f ht hf
    exact ⟨_, rfl, .cell f⟩

/-- Terms that spell operands are assembled into them, one by one. -/
private theorem terms_given {same : Program → Fragment → Prop}
    (hwrites : ∀ t c f, writes t c → assembleCell file t = .ok f → f.builder.cell = c)
    (terms : List Term) (ps : List Program.Operand) (arguments : List Argument)
    (h : List.Forall₂ (Term.Spells writes) terms ps)
    (harguments : List.Forall₂ (fun t argument => assembleTerm file t = .ok argument) terms
      arguments) :
    ∃ os, arguments = os.map .operand ∧ List.Forall₂ (Program.Operand.Given same) ps os := by
  induction h generalizing arguments with
  | nil =>
    cases harguments
    exact ⟨[], rfl, .nil⟩
  | cons ht _ ih =>
    cases harguments with
    | cons hfirst hrest =>
      obtain ⟨o, rfl, ho⟩ := ht.given file hwrites _ _ _ hfirst
      obtain ⟨os, rfl, hos⟩ := ih _ hrest
      exact ⟨o :: os, rfl, .cons ho hos⟩

/-- Accepted items are assembled into the program that they spell. -/
theorem Spells.given
    (hwrites : ∀ t c f, writes t c → assembleCell file t = .ok f → f.builder.cell = c)
    (items : List Item) (p : Program) (commands : List Command) (h : Spells writes items p)
    (hcommands : assembleItems file items = .ok commands) :
    List.Forall₂ (Program.Instruction.Given Program.Assembles) p commands := by
  -- Induction on the spelling; each item is paired with the command it was assembled into.
  induction h generalizing commands with
  | @intro items p same _ instructions ih =>
    refine forall₂_comp ?_ _ _ _ instructions.flip
      ((assembleItems_eq_ok file items commands).mp hcommands).flip
    intro i item command hitem hcommand
    obtain ⟨line, name, hterms, hblocks⟩ := hitem
    obtain ⟨arguments, fragments, e, harguments, hfragments, hencode, rfl⟩ :=
      (assembleItem_eq_ok file _ _ _ _ _).mp hcommand
    obtain ⟨os, rfl, hgiven⟩ := terms_given file hwrites _ _ arguments hterms harguments
    rw [encodeInstruction_operands] at hencode
    refine .intro _ e _ (List.rel_append hgiven ?_) hencode
    rw [List.forall₂_map_left_iff, List.forall₂_map_right_iff]
    refine forall₂_comp ?_ _ _ _ hblocks.flip hfragments.flip
    -- Code in blocks is covered by the induction, and all other operands by their terms.
    intro body items f hbody hf
    obtain ⟨commands, hcommands, hpack⟩ := (bind_eq_ok _ _ _).mp hf
    exact .code (.intro Program.Assembles (fun _ _ h => h) commands
      (ih items body hbody commands hcommands) hpack)

end Listing

/-! ## Cells and code in decoded programs -/

/-- In a program that was decoded, cells and programs are told apart. -/
theorem Slice.Decodes.wellKinded (s : Slice) (p : Program) (h : s.Decodes p) : p.WellKinded := by
  intro q hq i hi
  obtain ⟨t, ht, _⟩ := h.of_contains s p q (fun _ => True) (fun _ _ _ _ => trivial)
    (fun _ _ => trivial) hq
  obtain ⟨j, hij, ⟨format, hmem, hname, hsuits⟩, _⟩ := ht.instruction t q (fun _ => True)
    (fun _ _ _ _ => trivial) (fun _ _ => trivial) i hi
  refine i.wellKinded_of_format format hmem (hij.name_eq.trans hname) ?_
  refine Instruction.Formed.operands ?_ j i format hsuits hij
  rintro field o p ⟨taken, hyields⟩ hp
  cases hyields <;> cases hp <;> simp [Program.Operand.MayStandIn]

/-! ## Listings of code without jump tables -/

/-- Code that is printed with all cells written out is read as items that spell its program. -/
private theorem printCode_gives (store : CodeStore) (root : CodeId) (p : Program)
    (hroot : root < store.size) (hordered : store.Ordered) (hholds : store.Holds root p)
    (hprintable : ∀ q, p.Contains q → ∀ i ∈ q, i.Printable)
    (hunmarked : ∀ id, ∀ i ∈ store.get id, i.isMarked = false) :
    Listing.Print.Gives (Listing.printCode false store root "")
      (Listing.ReadsAsItems (Listing.Spells Listing.IsLiteral · p)) (fun _ => False) := by
  refine Listing.printCodeTo_gives _ store _ root p "" nofun hordered hroot (by omega) hholds
    hprintable ?_
  intro q id _ _ i hi c _ pad hpad
  rw [Listing.tablePrinter, hunmarked id i hi, if_neg Bool.false_ne_true]
  exact .pure _ _ (Listing.readsAsCell_literal pad c hpad)

/-- A listing of code without jump tables is assembled, if it is accepted, into cells that hold
    the same program as those it was printed from. -/
theorem loadCode_of_assemble_disassemble (s : Slice) (store : CodeStore) (root : CodeId)
    (hload : loadCode s false = .ok (store, root))
    (hplain : ∀ id i next, [i, next] <:+: store.get id → i.name ∈ dictionaryConstants →
      next.name ∉ dictionaryJumps) :
    ∃ p text, store.Holds root p ∧ Listing.disassemble s false = .ok text ∧
      ∀ file cell map, Listing.assemble text file = .ok (cell, map) → ∀ collapse,
        (collapse = true → cell.DistinctDigests) →
          ∃ store' root', loadCode cell.toSlice collapse = .ok (store', root') ∧
            store'.Holds root' p := by
  obtain ⟨hloaded, p, hdecodes, hholds⟩ := loadCode_holds s false s.cell.Reaches store root
    (fun _ hc => hc.refs) s.reaches_of_mem_refs nofun hload
  have hmarked := store.markJumpTables_marked root hloaded.unmarked
  -- Without jump tables nothing was marked.
  have hunmarked (id : CodeId) (j : Instruction CodeId)
      (hj : j ∈ (store.markJumpTables root).1.get id) : j.isMarked = false := by
    by_contra hmark
    obtain ⟨i, next, hpair, _, hconstant, hjump⟩ := Code.MarksTables.of_mem (·.name)
      (fun i j hij => hij.name_eq.symm) _ _ (hmarked.same id) (hmarked.marks id) j hj
      (Bool.of_not_eq_false hmark)
    exact hplain id i next hpair hconstant hjump
  have hgives := printCode_gives (store.markJumpTables root).1 root p
    (by rw [hmarked.size_eq]; exact hloaded.root_lt) (hmarked.ordered (hloaded.ordered rfl))
    (hmarked.holds root p hholds) (hdecodes.printable s p) hunmarked
  -- The text is read as the items that were printed, and these are assembled.
  obtain ⟨text, printed, hprint, hreads⟩ | ⟨_, _, _, h⟩ := hgives ∅
  · refine ⟨p, text, hholds, ?_, ?_⟩
    · simp only [Listing.disassemble, hload, hprint]
    intro file cell map hassemble collapse hdistinct
    obtain ⟨items, hparse, hspells⟩ := Listing.parse_of_readsAsItems _ text hreads
    obtain ⟨items', f, hparse', hfragment, hbuild⟩ :=
      (Listing.assemble_eq_ok file text _).mp hassemble
    cases hparse.symm.trans hparse'
    obtain ⟨commands, hcommands, hpack⟩ := (bind_eq_ok _ _ _).mp hfragment
    have hassembles : p.Assembles f := .intro Program.Assembles (fun _ _ h => h) commands
      (hspells.given file (fun t c f ht hf => ht.assembles file t c f hf) items p commands
        hcommands) hpack
    -- What was assembled decodes to the program again, and decoded code can be loaded.
    obtain ⟨_, hcell, _⟩ := (f.build_eq_ok _).mp hbuild
    obtain rfl : cell = f.builder.cell := hcell
    have hagain := hassembles.decodes p f _ (hdecodes.wellKinded s p) (Slice.shows_cell f.builder)
    obtain ⟨store', root', hload', _, hholds'⟩ := hagain.load _ collapse p hdistinct
    exact ⟨store', root', hload', hholds'⟩
  · exact h.elim

/-! ## A program that is not encoded as the assembler would -/

/-- A cell with one short instruction. -/
private def sumCell : Cell := .data (Opcode.hexBits "A0")

/-- A number in a longer form than it needs, code in a cell of its own, and the last
    instruction behind a link. -/
def roundabout : Cell := .mk (Opcode.hexBits "80078A") [sumCell, sumCell]

/-- The codes of `roundabout`. -/
def roundaboutStore : CodeStore := ⟨#[
  [⟨"PUSHINT", [.integer 7]⟩, ⟨"PUSHREFCONT", [.code 1 (some sumCell)]⟩, ⟨"ADD", []⟩],
  [⟨"ADD", []⟩]]⟩

/-- The short code decodes to its one instruction. -/
private theorem scan_sumCell : Decode.scan sumCell.toSlice = ⟨[⟨"ADD", []⟩], none⟩ :=
  Decode.scan_single _ ⟨sumCell, 8, 8, 0, 0⟩ _
    (Decode.step_of_longest _ _ (Opcode.op "ADD" "A0" []) _ (by decide +kernel) (by decide +kernel)
      rfl) rfl

/-- The cell decodes to three instructions, the last of them from behind the link. -/
private theorem scan_roundabout : Decode.scan roundabout.toSlice =
    ⟨[⟨"PUSHINT", [.integer 7]⟩, ⟨"PUSHREFCONT", [.code sumCell (some sumCell)]⟩, ⟨"ADD", []⟩],
      none⟩ := by
  have hnumber : Decode.step roundabout.toSlice =
      .instruction ⟨"PUSHINT", [.integer 7]⟩ ⟨roundabout, 16, 24, 0, 2⟩ :=
    Decode.step_of_longest _ _ (Opcode.op "PUSHINT" "80" [.signed 8]) _ (by decide +kernel)
      (by decide +kernel) rfl
  have hcode : Decode.step ⟨roundabout, 16, 24, 0, 2⟩ =
      .instruction ⟨"PUSHREFCONT", [.code sumCell (some sumCell)]⟩ ⟨roundabout, 24, 24, 1, 2⟩ :=
    Decode.step_of_longest _ _ (Opcode.op "PUSHREFCONT" "8A" [.code]) _ (by decide +kernel)
      (by decide +kernel) rfl
  have hlink : Decode.step ⟨roundabout, 24, 24, 1, 2⟩ = .jump sumCell := rfl
  rw [Decode.scan_eq, hnumber]
  simp only [Decode.scan_eq ⟨roundabout, 16, 24, 0, 2⟩, hcode,
    Decode.scan_eq ⟨roundabout, 24, 24, 1, 2⟩, hlink, scan_sumCell]

/-- So it is loaded into its two codes. -/
private theorem loadCode_roundabout :
    loadCode roundabout.toSlice false = .ok (roundaboutStore, 0) := by
  rw [loadCode, Loader.load, Loader.Work.run_cons _ _ _ _ _ scan_roundabout]
  simp only [Loader.Work.fill, Loader.Work.placeCode, Loader.Work.placeAll, Loader.Work.place,
    Loader.Work.placeBody, Loader.Work.defer, Loader.new, Bool.false_eq_true, false_and, if_false]
  rw [Loader.Work.run_cons _ _ _ _ _ scan_sumCell]
  simp only [Loader.Work.fill, Loader.Work.placeCode, Loader.Work.placeAll]
  rw [Loader.Work.run]
  rfl

/-- The listing of `roundabout` stands for its program and not for its encoding. -/
theorem loadCode_of_assemble_roundabout :
    loadCode roundabout.toSlice false = .ok (roundaboutStore, 0) ∧
      (∀ id i next, [i, next] <:+: roundaboutStore.get id → i.name ∈ dictionaryConstants →
        next.name ∉ dictionaryJumps) ∧
      ∃ p text, roundaboutStore.Holds 0 p ∧
        Listing.disassemble roundabout.toSlice false = .ok text ∧
        ∀ file cell map, Listing.assemble text file = .ok (cell, map) → ∀ collapse,
          (collapse = true → cell.DistinctDigests) →
            ∃ store' root', loadCode cell.toSlice collapse = .ok (store', root') ∧
              store'.Holds root' p := by
  -- No instruction in either code pushes a dictionary.
  have hplain (id : CodeId) (i next : Instruction CodeId)
      (h : [i, next] <:+: roundaboutStore.get id) (hi : i.name ∈ dictionaryConstants) :
      next.name ∉ dictionaryJumps := by
    have hmem : i ∈ roundaboutStore.get id := h.mem (by simp)
    have hnames : ∀ i ∈ roundaboutStore.get id, i.name ∉ dictionaryConstants := by
      match id with
      | 0 => decide
      | 1 => decide
      | id + 2 => exact nofun
    exact absurd hi (hnames i hmem)
  exact ⟨loadCode_roundabout, hplain,
    loadCode_of_assemble_disassemble _ _ _ loadCode_roundabout hplain⟩

end CellCode
