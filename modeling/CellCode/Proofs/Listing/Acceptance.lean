import CellCode.Proofs.Listing.Cells
import CellCode.Proofs.Listing.Packing

/-!
# Listings that are accepted

What it means, function by function, that a listing is assembled without an error.

* `assembleItem_eq_ok`   an instruction: its operands and blocks, then the first encoding
* `buildRaw_eq_ok`       a cell that is written out: its references are built, and all fits
* `IsLiteral.assembles`  a term that writes a cell out is assembled into that cell
-/

namespace CellCode.Listing

variable (file : String)

/-! ## Rows -/

/-- Items are assembled one by one. -/
theorem assembleItems_eq_ok (items : List Item) (commands : List Command) :
    assembleItems file items = .ok commands ↔
      List.Forall₂ (fun item command => assembleItem file item = .ok command) items commands :=
  inOrder_eq_ok _ _ (by rw [assembleItems]; rfl) (fun _ _ => by rw [assembleItems]; rfl) items _

/-- Terms are assembled one by one. -/
theorem assembleTerms_eq_ok (terms : List Term) (arguments : List Argument) :
    assembleTerms file terms = .ok arguments ↔
      List.Forall₂ (fun term argument => assembleTerm file term = .ok argument) terms arguments :=
  inOrder_eq_ok _ _ (by rw [assembleTerms]; rfl) (fun _ _ => by rw [assembleTerms]; rfl) terms _

theorem assembleCells_eq_ok (cells : List CellTerm) (fragments : List Fragment) :
    assembleCells file cells = .ok fragments ↔
      List.Forall₂ (fun cell fragment => assembleCell file cell = .ok fragment) cells fragments :=
  inOrder_eq_ok _ _ (by rw [assembleCells]; rfl) (fun _ _ => by rw [assembleCells]; rfl) cells _

theorem assembleEntries_eq_ok (entries : List (Int × List Item))
    (assembled : List (Int × Fragment)) :
    assembleEntries file entries = .ok assembled ↔
      List.Forall₂ (fun entry result => assembleEntry file entry = .ok result) entries assembled :=
  inOrder_eq_ok _ _ (by rw [assembleEntries]; rfl) (fun _ _ => by rw [assembleEntries]; rfl)
    entries _

/-- Nested codes are assembled one by one, and each is packed on its own. -/
theorem assembleBlocks_eq_ok (blocks : List (List Item)) (fragments : List Fragment) :
    assembleBlocks file blocks = .ok fragments ↔
      List.Forall₂ (fun items fragment => (assembleItems file items >>= pack) = .ok fragment)
        blocks fragments :=
  inOrder_eq_ok (fun items => assembleItems file items >>= pack) _
    (by rw [assembleBlocks]; rfl)
    (fun _ _ => by rw [assembleBlocks]; simp only [bind_assoc]; rfl) blocks _

/-- An entry has its key and what its code is packed to. -/
theorem assembleEntry_eq_ok (entry : Int × List Item) (result : Int × Fragment) :
    assembleEntry file entry = .ok result ↔
      ∃ f, (assembleItems file entry.2 >>= pack) = .ok f ∧ result = (entry.1, f) := by
  obtain ⟨key, items⟩ := entry
  rw [assembleEntry]
  simp only [bind_eq_ok]
  constructor
  · -- The commands are packed behind the step that assembles them.
    rintro ⟨commands, hcommands, f, hf, h⟩
    cases h
    exact ⟨f, ⟨commands, hcommands, hf⟩, rfl⟩
  · rintro ⟨f, ⟨commands, hcommands, hf⟩, rfl⟩
    exact ⟨commands, hcommands, f, hf, rfl⟩

/-! ## Instructions -/

/-- An instruction is encoded when its operands resolve and a format of its mnemonic takes them. -/
theorem encodeInstruction_eq_ok (line : Nat) (name : String) (arguments : List Argument)
    (e : Encoding) :
    encodeInstruction line name arguments = .ok e ↔ ∃ operands,
      List.Forall₂ (fun argument operand => argument.resolve arguments = .ok operand) arguments
        operands ∧
      firstEncoding operands (Opcode.standard.candidates name) none = .ok e := by
  simp only [encodeInstruction, bind_eq_ok, mapM_eq_ok]
  refine exists_congr fun operands => and_congr_right fun _ => ?_
  -- A mnemonic without formats is refused, and so are operands that no format takes.
  cases Opcode.standard.candidates name with
  | nil => exact ⟨nofun, nofun⟩
  | cons format formats =>
    dsimp only
    cases firstEncoding operands (format :: formats) none with
    | error reason => exact ⟨nofun, nofun⟩
    | ok encoding => exact ⟨fun h => by cases h; rfl, fun h => by cases h; rfl⟩

/-- Operands without dictionaries are taken as they are, and nested codes behind them. -/
theorem encodeInstruction_operands (line : Nat) (name : String)
    (os : List (Operand Fragment)) (codes : List Fragment) (e : Encoding) :
    encodeInstruction line name
        (os.map .operand ++ codes.map fun code => .operand (.code code none)) = .ok e ↔
      firstEncoding (os ++ codes.map (Operand.code · none)) (Opcode.standard.candidates name) none =
        .ok e := by
  have harguments : os.map Argument.operand ++
      codes.map (fun code => .operand (.code code none)) =
      (os ++ codes.map (Operand.code · none)).map .operand := by
    rw [List.map_append, List.map_map]
    rfl
  -- All arguments are operands now, which resolve to themselves.
  rw [harguments]
  generalize os ++ codes.map (Operand.code · none) = operands
  have hresolve (os : List (Operand Fragment)) :
      List.Forall₂ (fun argument operand =>
        Argument.resolve (operands.map .operand) argument = .ok operand)
        (operands.map .operand) os ↔ os = operands := by
    rw [List.forall₂_map_left_iff]
    simp only [Argument.resolve, Except.ok.injEq]
    rw [List.forall₂_eq_eq_eq]
    exact eq_comm
  simp only [encodeInstruction_eq_ok, hresolve, exists_eq_left]

/-- An instruction is assembled from its operands and then its nested codes. -/
theorem assembleItem_eq_ok (line : Nat) (name : String) (terms : List Term)
    (blocks : List (List Item)) (command : Command) :
    assembleItem file (.instruction line name terms blocks) = .ok command ↔
      ∃ arguments fragments e,
        List.Forall₂ (fun term argument => assembleTerm file term = .ok argument) terms arguments ∧
        List.Forall₂ (fun items fragment => (assembleItems file items >>= pack) = .ok fragment)
          blocks fragments ∧
        encodeInstruction line name
          (arguments ++ fragments.map fun code => .operand (.code code none)) = .ok e ∧
        command = .instruction e ⟨file, line⟩ := by
  rw [assembleItem]
  simp only [bind_eq_ok, assembleTerms_eq_ok, assembleBlocks_eq_ok]
  -- Both sides name the same results, in another order.
  constructor
  · rintro ⟨arguments, harguments, fragments, hfragments, e, he, hcommand⟩
    cases hcommand
    exact ⟨arguments, fragments, e, harguments, hfragments, he, rfl⟩
  · rintro ⟨arguments, fragments, e, harguments, hfragments, he, rfl⟩
    exact ⟨arguments, harguments, fragments, hfragments, e, he, rfl⟩

/-! ## Cells that are written out -/

/-- A result about cells is passed on also where a line is named in the error. -/
theorem ofCellResultOn_eq_ok {α : Type} (line : Nat) (x : Except CellError α) (a : α) :
    ofCellResultOn line x = .ok a ↔ x = .ok a := by
  cases x <;> simp [ofCellResultOn]

/-- What fits in the end fitted before. -/
private theorem fits_of_foldl {α : Type} (step : Fragment → α → Fragment)
    (hgrows : ∀ f a, (step f a).builder.Fits → f.builder.Fits) (as : List α) (f : Fragment)
    (h : (as.foldl step f).builder.Fits) : f.builder.Fits := by
  -- Induction on the members, from the first one on.
  induction as generalizing f with
  | nil => exact h
  | cons a as ih => exact hgrows f a (ih (step f a) h)

/-- Steps that succeed exactly when what is stored is good and their result fits into a cell. -/
private theorem foldlM_fits_eq_ok {α : Type} (good : α → Prop)
    (step? : Fragment → α → Except CellError Fragment) (step : Fragment → α → Fragment)
    (hstep : ∀ f a g, f.builder.Fits →
      (step? f a = .ok g ↔ good a ∧ (step f a).builder.Fits ∧ g = step f a))
    (hgrows : ∀ f a, (step f a).builder.Fits → f.builder.Fits) (as : List α) (f g : Fragment)
    (hf : f.builder.Fits) :
    as.foldlM step? f = .ok g ↔
      (∀ a ∈ as, good a) ∧ (as.foldl step f).builder.Fits ∧ g = as.foldl step f := by
  -- Induction on what is stored, with what has been stored before it.
  induction as generalizing f with
  | nil =>
    constructor
    · rintro ⟨⟩
      exact ⟨nofun, hf, rfl⟩
    · rintro ⟨_, _, rfl⟩
      rfl
  | cons a as ih =>
    rw [foldlM_cons_eq_ok, List.foldl_cons, List.forall_mem_cons]
    constructor
    · rintro ⟨f', hf', hg⟩
      obtain ⟨ha, hfits, rfl⟩ := (hstep f a f' hf).mp hf'
      obtain ⟨has, hall⟩ := (ih _ hfits).mp hg
      exact ⟨⟨ha, has⟩, hall⟩
    · rintro ⟨⟨ha, has⟩, hall, rfl⟩
      -- The result of the first step fits as well, since later steps only add to it.
      have hfits := fits_of_foldl step hgrows as _ hall
      exact ⟨_, (hstep f a _ hf).mpr ⟨ha, hfits, rfl⟩, (ih _ hfits).mpr ⟨has, hall, rfl⟩⟩

/-- A cell that is written out holds its raw bits and a link to each of its children. -/
def rawFragment (blobs : List (Bits × Debug.Position)) (children : List Fragment) : Fragment :=
  children.foldl Fragment.linkTo
    (blobs.foldl (fun f (bits, position) => f.takeOver (Command.blob bits position).fragment)
      .empty)

/-- Raw bits are stored where they fit, as a blob is taken over. -/
private theorem storeBlob_eq_ok (f g : Fragment) (blob : Bits × Debug.Position)
    (hf : f.builder.Fits) :
    (do
      let dbg := f.dbg.inlined f.builder.bits.length (.ofPosition blob.2)
      return ⟨← f.builder.storeBits blob.1, dbg⟩) = Except.ok g ↔
    True ∧ (f.takeOver (Command.blob blob.1 blob.2).fragment).builder.Fits ∧
      g = f.takeOver (Command.blob blob.1 blob.2).fragment := by
  -- Taking over a blob adds its bits and no references.
  have htake : f.takeOver (Command.blob blob.1 blob.2).fragment =
      ⟨⟨f.builder.bits ++ blob.1, f.builder.refs⟩,
        f.dbg.inlined f.builder.bits.length (.ofPosition blob.2)⟩ := by
    simp [Fragment.takeOver, Command.fragment]
  rw [htake]
  simp only [bind_eq_ok, Builder.storeBits_eq_ok _ _ _ hf.2, Builder.Fits, List.length_append,
    true_and]
  constructor
  · rintro ⟨_, ⟨hroom, rfl⟩, hg⟩
    cases hg
    exact ⟨⟨hroom, hf.2⟩, rfl⟩
  · rintro ⟨hfits, rfl⟩
    exact ⟨_, ⟨hfits.1, rfl⟩, rfl⟩

/-- A child is built and then linked to. -/
private theorem storeChild_eq_ok (f g child : Fragment) (hf : f.builder.Fits) :
    (do return ⟨← f.builder.storeRef (← child.builder.build), f.dbg.append child.dbg⟩) =
        Except.ok g ↔
      child.builder.Buildable ∧ (f.linkTo child).builder.Fits ∧ g = f.linkTo child := by
  simp only [bind_eq_ok, Builder.build_eq_ok, Builder.storeRef_eq_ok _ _ _ hf.1, Builder.Fits,
    Fragment.linkTo, List.length_append, List.length_singleton]
  -- The child has to be built first, and then the reference has to fit.
  constructor
  · rintro ⟨_, ⟨hbuild, rfl⟩, _, ⟨hroom, rfl⟩, hg⟩
    cases hg
    exact ⟨hbuild, ⟨hf.1, hroom⟩, rfl⟩
  · rintro ⟨hbuild, hfits, rfl⟩
    exact ⟨_, ⟨hbuild, rfl⟩, _, ⟨hfits.2, rfl⟩, rfl⟩

/-- A cell that is written out is built if all its children can be and the whole fits. -/
theorem buildRaw_eq_ok (line : Nat) (blobs : List (Bits × Debug.Position))
    (children : List Fragment) (f : Fragment) :
    buildRaw line blobs children = .ok f ↔
      (∀ child ∈ children, child.builder.Buildable) ∧
        (rawFragment blobs children).builder.Fits ∧ f = rawFragment blobs children := by
  -- It starts as a cell that holds nothing.
  have hempty : Fragment.empty.builder.Fits := ⟨Nat.zero_le _, Nat.zero_le _⟩
  -- Neither bits nor links make room for what was there before.
  have htakes (f : Fragment) (blob : Bits × Debug.Position)
      (h : (f.takeOver (Command.blob blob.1 blob.2).fragment).builder.Fits) : f.builder.Fits := by
    have := h.1
    have := h.2
    simp only [Fragment.takeOver, List.length_append] at *
    exact ⟨by omega, by omega⟩
  have hlinks (f child : Fragment) (h : (f.linkTo child).builder.Fits) : f.builder.Fits := by
    have := h.2
    simp only [Fragment.linkTo, List.length_append] at this
    exact ⟨h.1, by omega⟩
  -- First the bits are stored, one run of them after the other, and then the children.
  have hblobs (g : Fragment) := foldlM_fits_eq_ok (fun _ => True) _
    (fun f (blob : Bits × Debug.Position) =>
      f.takeOver (Command.blob blob.1 blob.2).fragment)
    (fun f a g => storeBlob_eq_ok f g a) htakes blobs .empty g hempty
  have hchildren (f g : Fragment) (hf : f.builder.Fits) :=
    foldlM_fits_eq_ok _ _ Fragment.linkTo (fun f a g => storeChild_eq_ok f g a) hlinks children
      f g hf
  rw [buildRaw, ofCellResultOn_eq_ok, bind_eq_ok]
  constructor
  · rintro ⟨g, hg, hf⟩
    obtain ⟨_, hfits, rfl⟩ := (hblobs g).mp hg
    exact (hchildren _ f hfits).mp hf
  · rintro ⟨hbuild, hall, hf⟩
    -- The bits alone fit, since the references only add to them.
    have hfits := fits_of_foldl _ hlinks _ _ hall
    exact ⟨_, (hblobs _).mpr ⟨fun _ _ => trivial, hfits, rfl⟩,
      (hchildren _ f hfits).mpr ⟨hbuild, hall, hf⟩⟩

/-- What a cell that is written out holds, and the debug nodes of its children. -/
theorem rawFragment_parts (blobs : List (Bits × Debug.Position)) (children : List Fragment) :
    (rawFragment blobs children).builder =
        ⟨blobs.flatMap (·.1), children.map (·.builder.cell)⟩ ∧
      (rawFragment blobs children).dbg.children = children.map (·.dbg) := by
  -- Bits come one after the other, and no child comes with them.
  have hblobs (f : Fragment) :
      (blobs.foldl (fun f (bits, position) => f.takeOver (Command.blob bits position).fragment)
        f).builder = ⟨f.builder.bits ++ blobs.flatMap (·.1), f.builder.refs⟩ ∧
      (blobs.foldl (fun f (bits, position) => f.takeOver (Command.blob bits position).fragment)
        f).dbg.children = f.dbg.children := by
    induction blobs generalizing f with
    | nil => simp
    | cons blob blobs ih =>
      rw [List.foldl_cons, (ih _).1, (ih _).2]
      simp [Fragment.takeOver, Command.fragment, Debug.Node.inlined, Debug.Node.ofPosition,
        Debug.Node.children]
  -- Each child adds one reference and one debug node.
  have hchildren (f : Fragment) :
      (children.foldl Fragment.linkTo f).builder =
        ⟨f.builder.bits, f.builder.refs ++ children.map (·.builder.cell)⟩ ∧
      (children.foldl Fragment.linkTo f).dbg.children =
        f.dbg.children ++ children.map (·.dbg) := by
    induction children generalizing f with
    | nil => simp
    | cons child children ih =>
      rw [List.foldl_cons, (ih _).1, (ih _).2]
      simp [Fragment.linkTo, Debug.Node.append, Debug.Node.children]
  rw [rawFragment, (hchildren _).1, (hchildren _).2, (hblobs _).1, (hblobs _).2]
  exact ⟨rfl, rfl⟩

/-- A cell that is written out is assembled when its bits and children are and all of it fits. -/
theorem assembleCell_raw_eq_ok (line : Nat) (blobs : List Blob) (children : List CellTerm)
    (f : Fragment) :
    assembleCell file (.raw line blobs children) = .ok f ↔ ∃ raw fragments,
      List.Forall₂ (fun blob result => assembleBlob file blob = .ok result) blobs raw ∧
      List.Forall₂ (fun cell fragment => assembleCell file cell = .ok fragment) children fragments ∧
      (∀ fragment ∈ fragments, fragment.builder.Buildable) ∧
      (rawFragment raw fragments).builder.Fits ∧ f = rawFragment raw fragments := by
  rw [assembleCell]
  simp only [bind_eq_ok, mapM_eq_ok, assembleCells_eq_ok, buildRaw_eq_ok]
  constructor
  · rintro ⟨raw, hraw, fragments, hfragments, hf⟩
    exact ⟨raw, fragments, hraw, hfragments, hf⟩
  · rintro ⟨raw, fragments, hraw, hfragments, hf⟩
    exact ⟨raw, hraw, fragments, hfragments, hf⟩

/-- Printed bits are assembled into the bits. -/
theorem BlobsSpell.assembles (blobs : List Blob) (bits : Bits) (h : BlobsSpell blobs bits) :
    ∃ raw : List (Bits × Debug.Position), raw.flatMap (·.1) = bits ∧
      List.Forall₂ (fun blob result => assembleBlob file blob = .ok result) blobs raw := by
  -- There are no bits to be printed, or they stand on one line.
  rcases h with ⟨rfl, rfl⟩ | ⟨line, rfl⟩
  · exact ⟨[], rfl, .nil⟩
  · refine ⟨[(bits, ⟨file, line⟩)], by simp, .cons ?_ .nil⟩
    rw [assembleBlob, Bits.ofHex_bitsText]
    rfl

/-- A term that writes a cell out is assembled into this cell, if it is accepted. -/
theorem IsLiteral.assembles (t : CellTerm) (c : Cell) (f : Fragment) (h : IsLiteral t c)
    (hf : assembleCell file t = .ok f) : f.builder.cell = c := by
  induction h generalizing f with
  -- Induction on the term: its children write out the references of the cell.
  | @intro line blobs children c same _ bits refs ih =>
    obtain ⟨raw, fragments, hraw, hfragments, _, _, rfl⟩ :=
      (assembleCell_raw_eq_ok file line blobs children f).mp hf
    obtain ⟨raw', hbits, hraw'⟩ := bits.assembles file blobs c.bits
    -- The bits that were assembled are those that spell the cell's.
    have hsame : raw = raw' := by
      have hunique := forall₂_comp (t := (· = ·))
        (fun a b c ha hc => Except.ok.inj (ha.symm.trans hc)) raw blobs raw' hraw.flip hraw'.flip
      rwa [List.forall₂_eq_eq_eq] at hunique
    -- The children write out the cell's references, and each was assembled into its cell.
    have hrefs : fragments.map (·.builder.cell) = c.refs := by
      have hall := forall₂_comp (t := fun f r => f.builder.cell = r)
        (fun f t r ht hr => ih t r hr f ht) fragments children c.refs hfragments.flip refs.flip
      rwa [← List.forall₂_map_left_iff (f := fun f : Fragment => f.builder.cell),
        List.forall₂_eq_eq_eq] at hall
    rw [(rawFragment_parts raw fragments).1, Builder.cell, hsame, hbits, hrefs, Cell.mk_bits_refs]

/-! ## Whole listings -/

/-- A listing is assembled when it is parsed, its items are packed, and the root can be built. -/
theorem assemble_eq_ok (source : String) (result : Cell × Debug.Map) :
    assemble source file = .ok result ↔ ∃ items f, parse (lex source) = .ok items ∧
      (assembleItems file items >>= pack) = .ok f ∧ f.build = .ok result := by
  simp only [assemble, assembleFragment, bind_eq_ok]
  cases parse (lex source) with
  | error line => exact ⟨nofun, nofun⟩
  | ok items =>
    simp only [bind_eq_ok, Except.ok.injEq, exists_and_left, exists_eq_left']
    refine exists_congr fun f => and_congr_right fun _ => ?_
    -- Errors of building are passed on, and so is its result.
    cases f.build with
    | error e => cases e <;> exact ⟨nofun, nofun⟩
    | ok result' => exact ⟨fun h => by cases h; rfl, fun h => by cases h; rfl⟩

end CellCode.Listing
