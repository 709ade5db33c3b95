import CellCode.Proofs.Listing.Acceptance
import CellCode.Proofs.Listing.Printing
import CellCode.Proofs.Opcode.Alike
import CellCode.Proofs.Program.Assembling

/-!
# Listings of assembled programs are accepted

A program that was assembled once is assembled again, into the same cells, from items that spell
it. The same is true of cells that keep to the capacity of cells, whether they are written out or
hold such a program behind raw bits.

* `Built`                    a term that is assembled into a cell, in every file
* `built_raw`, `built_code`  cells with references, cells with code
* `Spells.rebuilds`          items that spell an assembled program
-/

namespace CellCode.Listing

/-! ## Cells -/

/-- The term is assembled into the cell, whatever the file is called. -/
def Built (t : CellTerm) (c : Cell) : Prop :=
  ∀ file, ∃ f, assembleCell file t = .ok f ∧ f.builder.cell = c ∧ f.Aligned

private theorem builder_eq_of_cell_eq (b b' : Builder) (h : b.cell = b'.cell) : b = b' := by
  rw [← b.ofCell_cell, h, b'.ofCell_cell]

/-- A cell of raw bits and references. -/
theorem built_raw (line : Nat) (blobs : List Blob) (children : List CellTerm) (c : Cell)
    (hblobs : BlobsSpell blobs c.bits) (hchildren : List.Forall₂ Built children c.refs)
    (hc : c.Makeable) : Built (.raw line blobs children) c := by
  intro file
  obtain ⟨raw, hbits, hraw⟩ := hblobs.assembles file blobs c.bits
  obtain ⟨fragments, hfragments, hrefs⟩ := forall₂_exists
    (s := fun f t => assembleCell file t = .ok f)
    (t := fun (f : Fragment) r => f.builder.cell = r ∧ f.Aligned)
    (fun t r h => h file) children c.refs hchildren
  have hparts := rawFragment_parts raw fragments
  have hmap : fragments.map (·.builder.cell) = c.refs := by
    have hall := hrefs.imp fun _ _ h => h.1
    rwa [← List.forall₂_map_left_iff (f := fun f : Fragment => f.builder.cell),
      List.forall₂_eq_eq_eq] at hall
  rw [hbits, hmap] at hparts
  refine ⟨_, (assembleCell_raw_eq_ok file line blobs children _).mpr
    ⟨raw, fragments, hraw, hfragments.flip, ?_, ?_, rfl⟩, ?_, ?_⟩
  · -- The children are the references of a cell that can be made.
    intro f hf
    obtain ⟨r, hr, hcell, _⟩ := forall₂_mem_left _ _ hrefs f hf
    exact Cell.Makeable.buildable (hcell ▸ hc.refs r hr)
  · rw [hparts.1]
    exact hc.fits
  · rw [hparts.1, Builder.cell, Cell.mk_bits_refs]
  · rw [Fragment.Aligned, hparts.1, hparts.2, List.forall₂_map_left_iff]
    refine hrefs.imp ?_
    rintro f r ⟨rfl, haligned⟩
    exact haligned.covers

/-- A cell that is written out. -/
theorem IsLiteral.built (t : CellTerm) (c : Cell) (h : IsLiteral t c) (hc : c.Makeable) :
    Built t c := by
  induction h with
  | @intro line blobs children c same _ bits refs ih =>
    refine built_raw line blobs children c bits ?_ hc
    refine forall₂_imp_mem _ _ ?_ refs
    intro t _ r hr hsame
    exact ih t r hsame (hc.refs r hr)

/-! ## Items -/

/-- Packed commands are covered by their debug nodes when each command is. -/
private theorem pack_aligned (commands : List Command) (f : Fragment)
    (hcommands : ∀ command ∈ commands, command.fragment.Aligned) (h : pack commands = .ok f) :
    f.Aligned :=
  (pack_induct Fragment.Aligned (fun f g hf hg => hf.takeOver f g hg)
    (fun f g hf hg _ => hf.linkTo f g hg) Fragment.aligned_empty commands f hcommands h).1

variable (file : String)

/-- A term is assembled into the operand that the program was assembled with before. -/
private theorem Term.Spells.rebuilds {same : Program → Fragment → Prop} (t : Term)
    (p : Program.Operand) (o : Operand Fragment) (h : t.Spells Built p) (hgiven : p.Given same o) :
    ∃ o', assembleTerm file t = .ok (.operand o') ∧ o.Alike o' := by
  cases h with
  | integer v =>
    cases hgiven
    exact ⟨_, by rw [assembleTerm]; rfl, .plain _ rfl⟩
  | stack n =>
    cases hgiven
    exact ⟨_, by rw [assembleTerm]; rfl, .plain _ rfl⟩
  | control n =>
    cases hgiven
    exact ⟨_, by rw [assembleTerm]; rfl, .plain _ rfl⟩
  | bits literal b hb =>
    cases hgiven
    exact ⟨_, by rw [assembleTerm, hb]; rfl, .plain _ rfl⟩
  | cell t c ht =>
    cases hgiven with
    | cell f =>
      obtain ⟨f', hf', hbuild, haligned⟩ := ht file
      refine ⟨_, ?_, .code none (builder_eq_of_cell_eq _ _ hbuild) haligned⟩
      rw [assembleTerm, hf']
      rfl

private theorem terms_rebuild {same : Program → Fragment → Prop} (terms : List Term)
    (ps : List Program.Operand) (os : List (Operand Fragment))
    (h : List.Forall₂ (Term.Spells Built) terms ps)
    (hgiven : List.Forall₂ (Program.Operand.Given same) ps os) :
    ∃ os', List.Forall₂ (fun t argument => assembleTerm file t = .ok argument) terms
      (os'.map .operand) ∧ List.Forall₂ Operand.Alike os os' := by
  obtain ⟨os', hterms, halike⟩ := forall₂_exists
    (s := fun o' t => assembleTerm file t = .ok (.operand o')) (t := fun o' o => Operand.Alike o o')
    (fun t o ⟨p, ht, ho⟩ => Term.Spells.rebuilds file t p o ht ho) terms os
    (forall₂_comp (t := fun t o => ∃ p, Term.Spells Built t p ∧ Program.Operand.Given same p o)
      (fun t p o ht ho => ⟨p, ht, ho⟩) _ _ _ h hgiven.flip)
  refine ⟨os', ?_, halike.flip⟩
  rw [List.forall₂_map_right_iff]
  exact hterms.flip

/-- An item that spells an assembled instruction is assembled into the same bits and
    references, given that this is true of the codes nested in it. -/
private theorem Item.Spells.rebuilds {same : List Item → Program → Prop}
    {assembled : Program → Fragment → Prop}
    (hnested : ∀ items body g, same items body → assembled body g →
      ∃ f, (assembleItems file items >>= pack) = .ok f ∧ f.builder = g.builder ∧ f.Aligned)
    (item : Item) (i : Program.Instruction) (command : Command) (h : item.Spells Built same i)
    (hgiven : i.Given assembled command) :
    ∃ command', assembleItem file item = .ok command' ∧ command.Alike command' ∧
      command'.fragment.Aligned := by
  obtain ⟨line, name, hterms, hblocks⟩ := h
  obtain ⟨given, e, position, hgiven, hencoded⟩ := hgiven
  obtain ⟨os, codes, hos, hcodes, rfl⟩ := forall₂_append_left _ _ _ hgiven
  obtain ⟨os', hterms', halike⟩ := terms_rebuild file _ _ os hterms hos
  rw [List.forall₂_map_left_iff] at hcodes
  obtain ⟨fragments, hfragments, hblocksAlike⟩ := forall₂_exists
    (s := fun f block => (assembleItems file block >>= pack) = .ok f)
    (t := fun (f : Fragment) code => Operand.Alike code (.code f none))
    (by
      rintro block code ⟨body, hblock, hcode⟩
      cases hcode with
      | code hbody =>
        obtain ⟨f, hf, hbuilder, haligned⟩ := hnested block body _ hblock hbody
        exact ⟨f, hf, .code none hbuilder haligned⟩) _ codes
    (forall₂_comp (t := fun block code => ∃ body, same block body ∧
        Program.Operand.Given assembled (.code body) code)
      (fun block body code hblock hcode => ⟨body, hblock, hcode⟩) _ _ _ hblocks hcodes.flip)
  -- The operands are alike, so the same encoding is taken.
  have hall : List.Forall₂ Operand.Alike (os ++ codes)
      (os' ++ fragments.map (Operand.code · none)) := by
    refine List.rel_append halike ?_
    rw [List.forall₂_map_right_iff]
    exact hblocksAlike.flip
  have hlockstep := firstEncoding_alike (Opcode.standard.candidates name) none _ _ hall
  rw [hencoded] at hlockstep
  generalize hencoded' : firstEncoding (os' ++ fragments.map (Operand.code · none))
    (Opcode.standard.candidates name) none = x at hlockstep
  cases hlockstep with
  | @ok _ e' he =>
    refine ⟨.instruction e' ⟨file, line⟩, ?_, ⟨?_, ?_⟩, he.covers⟩
    · exact (assembleItem_eq_ok file _ _ _ _ _).mpr ⟨_, fragments, e', hterms', hfragments.flip,
        (encodeInstruction_operands _ _ _ _ _).mpr hencoded', rfl⟩
    · exact congrArg₂ Builder.mk he.bits he.refs
    · intro _
      exact he.covers.length_eq.symm

/-- Items that spell an assembled program are assembled into the same commands. -/
theorem Spells.rebuilds (items : List Item) (p : Program) (f : Fragment)
    (h : Spells Built items p) (hp : p.Assembles f) :
    ∃ commands commands', pack commands = .ok f ∧ assembleItems file items = .ok commands' ∧
      List.Forall₂ Command.Alike commands commands' ∧
      ∀ command ∈ commands', command.fragment.Aligned := by
  induction hp generalizing items with
  | @intro p f assembled _ commands given packed ih =>
    obtain ⟨same, nested, instructions⟩ := h
    -- Nested items are packed into fragments with the same builders, so they fit where those did.
    have hnested (items : List Item) (body : Program) (g : Fragment) (hitems : same items body)
        (hbody : assembled body g) :
        ∃ f, (assembleItems file items >>= pack) = .ok f ∧ f.builder = g.builder ∧ f.Aligned := by
      obtain ⟨commands, commands', hpack, hcommands', halike, haligned⟩ :=
        ih body g hbody items (nested items body hitems)
      obtain ⟨f, hf, hbuilder⟩ := pack_alike commands commands' g halike hpack
      refine ⟨f, (bind_eq_ok _ _ _).mpr ⟨commands', hcommands', hf⟩, hbuilder, ?_⟩
      exact pack_aligned commands' f haligned hf
    obtain ⟨commands', hitems', halike⟩ := forall₂_exists
      (s := fun command' item => assembleItem file item = .ok command')
      (t := fun (command' command : Command) => command.Alike command' ∧ command'.fragment.Aligned)
      (by
        rintro item command ⟨i, hitem, hi⟩
        exact Item.Spells.rebuilds file hnested item i command hitem hi) items commands
      (forall₂_comp (t := fun item command => ∃ i, Item.Spells Built same item i ∧
          Program.Instruction.Given assembled i command)
        (fun item i command hitem hi => ⟨i, hitem, hi⟩) _ _ _ instructions given.flip)
    refine ⟨commands, commands', packed,
      (assembleItems_eq_ok file items commands').mpr hitems'.flip,
      halike.flip.imp fun _ _ h => h.1, ?_⟩
    intro command hcommand
    obtain ⟨_, _, h⟩ := forall₂_mem_left _ _ halike command hcommand
    exact h.2

/-- Items that spell an assembled program are assembled into the same cell. -/
theorem Spells.assembles_again (items : List Item) (p : Program) (f : Fragment)
    (h : Spells Built items p) (hp : p.Assembles f) :
    ∃ f', (assembleItems file items >>= pack) = .ok f' ∧ f'.builder = f.builder ∧ f'.Aligned := by
  obtain ⟨commands, commands', hpack, hcommands', halike, haligned⟩ := h.rebuilds file items p f hp
  obtain ⟨f', hf', hbuilder⟩ := pack_alike commands commands' f halike hpack
  exact ⟨f', (bind_eq_ok _ _ _).mpr ⟨commands', hcommands', hf'⟩, hbuilder,
    pack_aligned commands' f' haligned hf'⟩

/-- A cell that holds an assembled program behind raw bits. -/
theorem built_code (line : Nat) (blobs : List Blob) (items : List Item) (p : Program)
    (f : Fragment) (front : Bits) (c : Cell) (hblobs : BlobsSpell blobs front)
    (hitems : Spells Built items p) (hp : p.Assembles f) (hbits : c.bits = front ++ f.builder.bits)
    (hrefs : c.refs = f.builder.refs) (hc : c.Fits) : Built (.code line blobs items) c := by
  intro file
  obtain ⟨commands, commands', hpack, hcommands', halike, haligned⟩ :=
    hitems.rebuilds file items p f hp
  have hbuild (f' : Fragment) (hf' : f'.builder = f.builder.behind front) :
      f'.builder.cell = c := by
    rw [hf', Builder.behind, Builder.cell, ← hbits, ← hrefs, Cell.mk_bits_refs]
  have hroom : front.length + f.builder.bits.length ≤ Cell.maxBits := by
    have := hc.1
    rwa [hbits, List.length_append] at this
  -- Raw bits in front are one more command before those of the program.
  rcases hblobs with ⟨rfl, rfl⟩ | ⟨at', rfl⟩
  · obtain ⟨f', hf', hbuilder⟩ := pack_alike commands commands' f halike hpack
    refine ⟨f', ?_, hbuild f' hbuilder, pack_aligned commands' f' haligned hf'⟩
    rw [assembleCell, hcommands']
    exact hf'
  · obtain ⟨f', hf', hbuilder⟩ :=
      pack_behind front ⟨file, at'⟩ commands commands' f halike hpack hroom
    refine ⟨f', ?_, hbuild f' hbuilder, pack_aligned _ f' ?_ hf'⟩
    · have hblob : assembleBlob file ⟨at', bitsText front⟩ = .ok (front, ⟨file, at'⟩) := by
        rw [assembleBlob, Bits.ofHex_bitsText]
        rfl
      rw [assembleCell]
      exact (bind_eq_ok _ _ _).mpr ⟨_, (mapM_eq_ok _ _ _).mpr (.cons hblob .nil),
        (bind_eq_ok _ _ _).mpr ⟨commands', hcommands', hf'⟩⟩
    · intro command hcommand
      rcases List.mem_cons.mp hcommand with rfl | hcommand
      · exact .nil
      · exact haligned command hcommand

end CellCode.Listing
