import CellCode.Proofs.Listing.Rebuilding

/-!
# Literals survive

A cell that is printed in lines of its own can be put behind the mnemonic of an instruction that
takes a cell. The listing is accepted, and the instruction refers to this very cell.

## Key results

- `readsAsItems_operandLines`: a mnemonic with a printed cell behind it is read as an instruction
- `assembles_pushref`: what the instruction is assembled into
- `assemble_cellLines`: from a cell to its text and back
-/

namespace CellCode.Listing

/-- Blanks may stand before an operand. -/
theorem ReadsAsTerm.behindBlank (good : Term → Prop) (pad text : String)
    (h : ReadsAsTerm good text) (hpad : ∀ ch ∈ pad.toList, ch = ' ') :
    ReadsAsTerm good (pad ++ text) := by
  intro line at' name operands stage rest hstage
  obtain ⟨line', term, hreads, hgood⟩ := h line at' name operands stage rest hstage
  exact ⟨line', term, (Reads.blank pad line _ hpad).trans hreads, hgood⟩

/-- The lines of a cell behind a mnemonic are read as an instruction that has the cell as its only
    operand. -/
theorem readsAsItems_operandLines (name pad : String) (c : Cell) (hname : IsName name)
    (hpad : ∀ ch ∈ pad.toList, ch = ' ') (hc : c.Makeable) :
    ReadsAsItems (Spells Built · (Program.single name [.cell c]))
      (name ++ " " ++ cellLines pad c) := by
  have hterm : ReadsAsTerm (Term.Spells Built · (.cell c)) (pad ++ literal pad c) := by
    refine ReadsAsTerm.behindBlank _ pad _ ?_ hpad
    refine readsAsTerm_of_cell (IsLiteral · c) _ _ ?_ (readsAsCell_literal pad c hpad)
    exact fun t ht => .cell t c (ht.built t c hc)
  have hitems := readsAsItems_instruction (Term.Spells Built) (Spells Built) "" name
    [pad ++ literal pad c] [] [.cell c] [] nofun hname (.cons hterm .nil) .nil nofun
  have htext : name ++ " " ++ cellLines pad c = "" ++ name ++
      (if [pad ++ literal pad c].isEmpty then "" else
        " " ++ ", ".intercalate [pad ++ literal pad c]) ++ String.join [] ++ "\n" := by
    rw [List.isEmpty_cons, if_neg (by decide), String.intercalate_singleton, String.join_nil,
      String.append_empty, String.empty_append, cellLines]
    simp only [String.append_assoc]
  rw [htext]
  refine hitems.imp ?_
  rintro items ⟨line, terms, codes, rfl, hterms, hcodes⟩
  cases hcodes
  exact .intro (Spells Built) (fun _ _ h => h) (.cons (.intro line name hterms .nil) .nil)

/-- The instruction that pushes a cell is its opcode with a reference to the cell. -/
theorem assembles_pushref (c : Cell) (hc : (Builder.ofCell c).build = .ok c) :
    ∃ f, (Program.single "PUSHREF" [.cell c]).Assembles f ∧
      f.builder = ⟨Opcode.hexBits "88", [c]⟩ := by
  have hparts : (Builder.ofCell c).cell = c := Cell.mk_bits_refs c
  have hshadow : ∀ g ∈ Opcode.instructions, g.opcode <+: Opcode.hexBits "88" →
      ¬ (Opcode.hexBits "88").length < g.opcode.length := by decide +kernel
  have hencoded := Program.firstEncoding_first "PUSHREF" (Opcode.op "PUSHREF" "88" [.cell]) []
    [.code ⟨.ofCell c, .empty⟩ none] ⟨Opcode.hexBits "88", [(Builder.ofCell c).cell],
      .mk [] [.empty]⟩ (by decide +kernel) rfl hshadow
  rw [hparts] at hencoded
  have hcell : Program.Operand.Given Program.Assembles (.cell (Builder.ofCell c).cell)
      (.code ⟨.ofCell c, .empty⟩ none) := .cell ⟨.ofCell c, .empty⟩
  rw [hparts] at hcell
  refine ⟨⟨⟨Opcode.hexBits "88", [c]⟩, .mk [(0, ⟨"source", 1⟩)] [.empty]⟩, ?_, rfl⟩
  refine .intro Program.Assembles (fun _ _ h => h) _
    (.cons (.intro _ _ ⟨"source", 1⟩ (.cons hcell .nil) hencoded) .nil) ?_
  -- The cell is built when the command is written, which then is all there is to fold.
  refine (pack_eq_ok _ _).mpr ⟨⟨[], _⟩, ?_, rfl⟩
  refine (foldlM_cons_eq_ok _ _ _ _ _).mpr ⟨_, ?_, rfl⟩
  simp only [Command.write, Chain.writeComposite, List.map_cons, List.map_nil, List.mapM_cons, hc]
  rfl

/-- A cell that is printed with any indentation and put behind the mnemonic is the only reference
    of the cell that is assembled. -/
theorem assemble_cellLines (c : Cell) (hc : c.InCapacity) (hdepth : c.depth ≤ 65535)
    (pad file : String) (hpad : ∀ ch ∈ pad.toList, ch = ' ') :
    ∃ cell map, assemble ("PUSHREF " ++ cellLines pad c) file = .ok (cell, map) ∧
      cell.refs = [c] := by
  have hname : IsName "PUSHREF" := ⟨'P', ['U', 'S', 'H', 'R', 'E', 'F'], rfl, by decide,
    List.all_eq_true.mp (by decide)⟩
  have hmakeable := Cell.makeable_iff.mpr ⟨hc, Nat.le_succ_of_le hdepth⟩
  obtain ⟨items, hparse, hspells⟩ :=
    parse_of_readsAsItems _ _ (readsAsItems_operandLines "PUSHREF" pad c hname hpad hmakeable)
  obtain ⟨f, hp, hf⟩ := assembles_pushref c (hmakeable c (.self c))
  obtain ⟨f', hf', hbuilder, haligned⟩ := hspells.assembles_again file items _ f hp
  -- The root is one deeper than the cell, and can still be built.
  have hbuild : f'.builder.Buildable := by
    rw [hbuilder, hf]
    exact ⟨⟨Nat.le_of_ble_eq_true rfl, Nat.le_of_ble_eq_true rfl⟩,
      List.forall_mem_singleton.mpr hdepth⟩
  obtain ⟨map, hmap⟩ := haligned.inStep.build hbuild
  refine ⟨f'.builder.cell, map, ?_, ?_⟩
  · exact (assemble_eq_ok file _ _).mpr ⟨items, f', hparse, hf', hmap⟩
  · rw [hbuilder, hf, Builder.cell, Cell.refs_mk]

/-- Nine bits, too many for two hexadecimal digits. -/
def nineBits : Cell := .data (List.replicate 9 true)

/-- A cell without bits that refers to one cell twice and to an empty cell further down. -/
def sharingLiteral : Cell := .mk [] [nineBits, .mk [true] [.data []], nineBits]

theorem assemble_cellLines_sharingLiteral :
    sharingLiteral.InCapacity ∧ sharingLiteral.depth ≤ 65535 ∧ (∀ ch ∈ "   ".toList, ch = ' ') ∧
    ∃ cell map, assemble ("PUSHREF " ++ cellLines "   " sharingLiteral) "main" = .ok (cell, map) ∧
      cell.refs = [sharingLiteral] := by
  have hnine : nineBits.InCapacity := .intro (by decide) nofun
  have hempty : (Cell.data []).InCapacity := .intro (by decide) nofun
  have hmiddle : (Cell.mk [true] [.data []]).InCapacity :=
    .intro (by decide) (by simpa using hempty)
  have hall : sharingLiteral.InCapacity :=
    .intro (by decide) (by simpa [sharingLiteral] using ⟨hnine, hmiddle, hnine⟩)
  have hpad : ∀ ch ∈ "   ".toList, ch = ' ' := by simp
  have hdepth : sharingLiteral.depth ≤ 65535 := by decide
  exact ⟨hall, hdepth, hpad, assemble_cellLines sharingLiteral hall hdepth "   " "main" hpad⟩

end CellCode.Listing
