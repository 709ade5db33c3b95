import CellCode.Proofs.Listing.Packing
import CellCode.Proofs.Opcode.Spelling
import CellCode.Proofs.Program.Loading

/-!
# Assembled programs are decoded again

A program is assembled from the inside out: nested programs become fragments, each instruction
takes the first of its encodings that can hold its operands and is not shadowed, and the
encoded instructions are packed into cells. Decoding the cells finds the program again.

* `Program.Assembles`          the fragment that a program is assembled into
* `Fragment.Linked.scan`       a chain of cells is scanned as its commands in order
* `Program.Assembles.decodes`  a slice that shows an assembled program decodes to it
* `Program.Assembles.loadCode_iff`   so does loading it, with or without collapsing
-/

namespace CellCode

open Listing (Command)

namespace Program

/-! ## Assembling -/

/-- The assembled operand, given which fragments are which programs. -/
inductive Operand.Given (same : Program → Fragment → Prop) :
    Program.Operand → CellCode.Operand Fragment → Prop
  | integer (v : Int) : Given same (.integer v) (.integer v)
  | stack (i : Int) : Given same (.stack i) (.stack i)
  | control (i : Int) : Given same (.control i) (.control i)
  | bits (b : Bits) : Given same (.bits b) (.bits b)
  | cell (f : Fragment) : Given same (.cell f.builder.cell) (.code f none)
  | code {body : Program} {f : Fragment} (h : same body f) : Given same (.code body) (.code f none)

/-- The assembled instruction: its first encoding that can hold the operands and that decoding
    would not take for another instruction. -/
inductive Instruction.Given (same : Program → Fragment → Prop) :
    Program.Instruction → Command → Prop
  | intro {name : String} {operands : List Program.Operand}
      (given : List (CellCode.Operand Fragment))
      (e : Encoding) (position : Debug.Position)
      (operands_given : List.Forall₂ (Operand.Given same) operands given)
      (encoded : Listing.firstEncoding given (Opcode.standard.candidates name) none = .ok e) :
      Given same (.mk name operands) (.instruction e position)

/-- The program is assembled into this fragment: nested programs first, then each instruction,
    and all of them are packed. -/
inductive Assembles : Program → Fragment → Prop
  | intro {p : Program} {f : Fragment} (same : Program → Fragment → Prop)
      (nested : ∀ body g, same body g → Assembles body g) (commands : List Command)
      (given : List.Forall₂ (Instruction.Given same) p commands)
      (packed : Listing.pack commands = .ok f) : Assembles p f

/-- The operand may stand in the field: opaque cells stand where the instruction takes a cell,
    and programs where it takes code. -/
def Operand.MayStandIn (field : Field) : Program.Operand → Prop
  | .cell _ => field = .cell
  | .code _ => field ≠ .cell
  | _ => True

instance (field : Field) (p : Program.Operand) : Decidable (p.MayStandIn field) :=
  match p with
  | .cell _ => inferInstanceAs (Decidable (field = .cell))
  | .code _ => inferInstanceAs (Decidable (field ≠ .cell))
  | .integer _ | .stack _ | .control _ | .bits _ => isTrue trivial

/-- Cells and programs are told apart as the encodings of the instruction do. -/
def Instruction.WellKinded (i : Program.Instruction) : Prop :=
  ∀ h ∈ Opcode.standard.candidates i.name, ∀ pair ∈ h.fields.zip i.operands,
    pair.2.MayStandIn pair.1

/-- Cells and programs are told apart everywhere in the program. -/
def WellKinded (p : Program) : Prop := ∀ q, p.Contains q → ∀ i ∈ q, i.WellKinded

instance (i : Program.Instruction) : Decidable i.WellKinded :=
  inferInstanceAs (Decidable (∀ h ∈ _, ∀ pair ∈ _, _))

/-- Cells and programs are told apart in nested code, too. -/
theorem WellKinded.body {p body : Program} {i : Program.Instruction} (h : p.WellKinded)
    (hi : i ∈ p) (hbody : .code body ∈ i.operands) : body.WellKinded :=
  fun q hq => h q (.inside i hi hbody hq)

/-- Cells and programs are told apart in a program when they are in its instructions and in
    the programs nested in it. -/
theorem wellKinded_iff (p : Program) : p.WellKinded ↔
    ∀ i ∈ p, i.WellKinded ∧ ∀ body : Program, .code body ∈ i.operands → body.WellKinded := by
  constructor
  · intro h i hi
    exact ⟨h p (.self p) i hi, fun body hbody => h.body hi hbody⟩
  · -- A program that occurs is the whole one, or occurs in nested code.
    intro h q hq
    cases hq with
    | self => exact fun i hi => (h i hi).1
    | inside i hi hbody hq => exact (h i hi).2 _ hbody q hq

/-- Operands that may stand in some fields may stand in others, if the same of them take cells. -/
private theorem mayStandIn_zip (fields fields' : List Field) (ps : List Program.Operand)
    (h : List.Forall₂ Operand.MayStandIn fields ps)
    (hsame : ∀ pair ∈ fields.zip fields', pair.1 = .cell ↔ pair.2 = .cell) :
    ∀ pair ∈ fields'.zip ps, pair.2.MayStandIn pair.1 := by
  -- Induction on the fields and operands, for any second fields.
  induction h generalizing fields' with
  | nil => simp
  | @cons field p fields ps hp _ ih =>
    cases fields' with
    | nil => simp
    | cons field' fields' =>
      rw [List.zip_cons_cons, List.forall_mem_cons] at hsame ⊢
      refine ⟨?_, ih fields' hsame.2⟩
      -- Only cells and programs ask for a kind of field, and both fields are of the same kind.
      cases p with
      | cell c => exact hsame.1.mp hp
      | code body => exact fun h => hp (hsame.1.mpr h)
      | _ => trivial

/-- One encoding of an instruction tells its cells and programs apart as all the others do. -/
theorem Instruction.wellKinded_of_format (i : Program.Instruction) (h : Opcode.Format)
    (hmem : h ∈ Opcode.instructions) (hname : i.name = h.name)
    (hoperands : List.Forall₂ Operand.MayStandIn h.fields i.operands) : i.WellKinded := by
  intro h' hcandidate
  obtain ⟨hmem', hname'⟩ := List.mem_filter.mp hcandidate
  -- All formats of one name take cells in the same places.
  exact mayStandIn_zip h.fields h'.fields i.operands hoperands
    (Opcode.cell_iff_of_name_eq h h' hmem hmem' ((eq_of_beq hname').trans hname))

end Program

/-! ## One instruction -/

/-- The fragment, wherever it stands, is decoded as this instruction. -/
def Fragment.DecodesAs (f : Fragment) (i : Instruction Cell) : Prop :=
  ∀ (s : Slice) (more : Bits) (moreRefs : List Cell),
    s.Shows (f.builder.bits ++ more) (f.builder.refs ++ moreRefs) →
      ∃ rest, Decode.step s = .instruction i rest ∧ rest.Shows more moreRefs

/-- An encoding that is not shadowed is decoded as its instruction, whatever follows it. -/
theorem Opcode.Format.decodesAs (h : Opcode.Format) (operands : List (Operand Fragment))
    (e : Encoding) (dbg : Debug.Node) (hmem : h ∈ Opcode.instructions)
    (henc : h.encode operands = .ok e)
    (hshadow : Opcode.standard.shadowing? h e.bits = none) :
    Fragment.DecodesAs ⟨⟨e.bits, e.refs⟩, dbg⟩ ⟨h.name, h.held operands⟩ := by
  intro s more moreRefs hs
  obtain ⟨_, _, hdecode⟩ :=
    -- The operands are read back from the encoding, whatever follows it.
    Format.decode_encode h operands e (Opcode.instructions_fields_proper h hmem) henc
  obtain ⟨rest, hrest, hshows⟩ := hdecode s more moreRefs hs
  -- The opcode that is found is that of the format, because no other one shadows it.
  have hfind : Opcode.standard.find? s.data = some h := by
    rw [hs.data_eq]
    exact Opcode.find?_encode h operands e more hmem henc hshadow
  exact ⟨rest, Decode.step_of_find? s rest h _ hfind hrest, hshows⟩

/-! ## Chains of cells -/

/-- A code is followed step by step. -/
theorem Decode.scan_eq (s : Slice) :
    Decode.scan s = match Decode.step s with
      | .finished => ⟨[], none⟩
      | .jump next => Decode.scan next.toSlice
      | .instruction i rest => ⟨i :: (Decode.scan rest).instructions, (Decode.scan rest).failure⟩
      | .failed e operands => ⟨[], some (e, operands)⟩ := by
  rw [Decode.scan.eq_def]
  -- Only the equation that justifies termination is dropped.
  split <;> rename_i h <;> rw [h]

/-- An instruction is found by the longest opcode that starts the slice. -/
theorem Decode.step_of_longest (s rest : Slice) (h : Opcode.Format)
    (operands : List (Operand Cell)) (hbits : s.remainingBits ≠ 0)
    (hlongest : h ∈ Opcode.instructions ∧ h.opcode <+: s.data ∧ -1 < (h.opcode.length : Int) ∧
      ∀ g ∈ Opcode.instructions, g.opcode <+: s.data → g.opcode.length ≤ h.opcode.length)
    (hdecode : h.decode s = ⟨operands, .ok rest⟩) :
    Decode.step s = .instruction ⟨h.name, operands⟩ rest := by
  -- The opcodes differ, so the longest one that starts the slice is the one that is found.
  have hfind := (Opcode.Table.findLonger?_eq_some Opcode.instructions s.data (-1) h
    Opcode.instructions_opcodes_nodup).mpr hlongest
  rw [Decode.step, if_neg hbits, Opcode.standard, Opcode.Table.find?, hfind]
  simp only [hdecode]

/-- An instruction behind which the code ends is all there is. -/
theorem Decode.scan_single (s rest : Slice) (i : Instruction Cell)
    (hstep : Decode.step s = .instruction i rest) (hend : Decode.step rest = .finished) :
    Decode.scan s = ⟨[i], none⟩ := by
  rw [Decode.scan_eq, hstep]
  simp only [Decode.scan_eq rest, hend]

/-- A run of commands at the front of a slice is scanned in order. -/
private theorem scan_run (run : List Fragment) (is : List (Instruction Cell)) (s : Slice)
    (more : Bits) (moreRefs : List Cell) (hrun : List.Forall₂ Fragment.DecodesAs run is)
    (hs : s.Shows (run.flatMap (·.builder.bits) ++ more)
      (run.flatMap (·.builder.refs) ++ moreRefs)) :
    ∃ rest, Decode.scan s = ⟨is ++ (Decode.scan rest).instructions, (Decode.scan rest).failure⟩ ∧
      rest.Shows more moreRefs := by
  -- Induction on the run: the slice shows the first command in front, and behind it the rest.
  induction hrun generalizing s with
  | nil => exact ⟨s, rfl, hs⟩
  | cons hfirst _ ih =>
    rw [List.flatMap_cons, List.flatMap_cons, List.append_assoc, List.append_assoc] at hs
    obtain ⟨s₁, hstep, hs₁⟩ := hfirst s _ _ hs
    obtain ⟨rest, hscan, hrest⟩ := ih s₁ hs₁
    refine ⟨rest, ?_, hrest⟩
    rw [Decode.scan_eq, hstep]
    simp only [hscan]
    rfl

/-- Nothing left is the end of a code. -/
private theorem scan_nothing (s : Slice) (hs : s.Shows [] []) : Decode.scan s = ⟨[], none⟩ := by
  have hbits : s.remainingBits = 0 := hs.remainingBits
  have hrefs : s.remainingRefs = 0 := hs.remainingRefs
  rw [Decode.scan_eq, Decode.step, if_pos hbits, if_pos hrefs]

/-- A single reference is where the code goes on. -/
private theorem scan_link (s : Slice) (next : Cell) (hs : s.Shows [] [next]) :
    Decode.scan s = Decode.scan next.toSlice := by
  obtain ⟨rest, hload, _⟩ := hs.loadRef
  have hbits : s.remainingBits = 0 := hs.remainingBits
  have hrefs : s.remainingRefs = 1 := hs.remainingRefs
  rw [Decode.scan_eq, Decode.step, if_pos hbits, if_neg (by omega), if_pos hrefs, hload]

/-- A chain of cells is scanned as its commands in order: where a run ends, the link to the
    next cell is what is left. -/
theorem Fragment.Linked.scan (runs : List (List Fragment)) (f : Fragment)
    (is : List (Instruction Cell)) (s : Slice) (h : Linked runs f)
    (hruns : List.Forall₂ Fragment.DecodesAs runs.flatten is)
    (hs : s.Shows f.builder.bits f.builder.refs) : Decode.scan s = ⟨is, none⟩ := by
  -- Induction on the chain: each cell holds a run, and the last one nothing more.
  induction h generalizing is s with
  | last run =>
    rw [List.flatten_singleton] at hruns
    obtain ⟨rest, hscan, hrest⟩ := scan_run run is s [] [] hruns (by simpa [ofRun] using hs)
    rw [hscan, scan_nothing rest hrest, List.append_nil]
  -- Behind the run the link is the only thing left, so the scan goes on in the next cell.
  | @link run runs next _ ih =>
    rw [List.flatten_cons] at hruns
    obtain ⟨is₁, is₂, hrun, hrest, rfl⟩ := forall₂_append_left run runs.flatten is hruns
    obtain ⟨rest, hscan, hrest'⟩ :=
      scan_run run is₁ s [] [next.builder.cell] hrun (by simpa [ofRun, linkTo] using hs)
    have hnext := ih is₂ next.builder.cell.toSlice hrest (by
      have hshows := Slice.shows_toSlice next.builder.cell
      rwa [Builder.cell, Cell.bits_mk, Cell.refs_mk] at hshows)
    rw [hscan, scan_link rest _ hrest', hnext]

/-! ## Programs -/

namespace Program

/-- What decoding finds in a field is the operand that was given for it. -/
private theorem Operand.Given.held {same : Program → Fragment → Prop}
    (hsame : ∀ body f, same body f → f.builder.cell.toSlice.Decodes body) (field : Field)
    (p : Program.Operand) (o : CellCode.Operand Fragment) (h : p.Given same o)
    (hkind : p.MayStandIn field) :
    p.Is (fun body k => k.toSlice.Decodes body) (field.held o) ∧
      (field.held o).isMarker = false := by
  -- What a field holds of an operand is the operand itself, except that code becomes its cell.
  cases h with
  | integer v => exact ⟨by cases field <;> exact .integer v, by cases field <;> rfl⟩
  | stack i => exact ⟨by cases field <;> exact .stack i, by cases field <;> rfl⟩
  | control i => exact ⟨by cases field <;> exact .control i, by cases field <;> rfl⟩
  | bits b => exact ⟨by cases field <;> exact .bits b, by cases field <;> rfl⟩
  | cell f =>
    obtain rfl : field = .cell := hkind
    exact ⟨.cell _, rfl⟩
  -- A program stands in no field that takes cells, so the field holds its code.
  | code hbody =>
    have hdecodes := hsame _ _ hbody
    cases field with
    | cell => exact absurd rfl hkind
    | _ => exact ⟨.code _ hdecodes, rfl⟩

/-- So it is for all operands of an instruction, and none of them is a mark. -/
private theorem given_held {same : Program → Fragment → Prop}
    (hsame : ∀ body f, same body f → f.builder.cell.toSlice.Decodes body) (fields : List Field)
    (ps : List Program.Operand) (os : List (CellCode.Operand Fragment))
    (h : List.Forall₂ (Operand.Given same) ps os) (hlength : os.length = fields.length)
    (hkinds : ∀ pair ∈ fields.zip ps, pair.2.MayStandIn pair.1) :
    List.Forall₂ (fun p o => Operand.Is (fun body k => k.toSlice.Decodes body) p o ∧
      o.isMarker = false) ps ((fields.zip os).map fun pair => pair.1.held pair.2) := by
  -- Induction on the operands, each with the field in its place.
  induction h generalizing fields with
  | nil => simp
  | cons hp _ ih =>
    cases fields with
    | nil => simp at hlength
    | cons field fields =>
      refine .cons (hp.held hsame field _ _ (hkinds (field, _) (List.mem_cons_self ..))) ?_
      exact ih fields (by simpa using hlength)
        (fun pair hpair => hkinds pair (List.mem_cons_of_mem _ hpair))

/-- An assembled instruction is decoded as the instruction it was assembled from. -/
private theorem Instruction.Given.decodesAs (same : Program → Fragment → Prop)
    (hsame : ∀ body f, same body f → f.builder.cell.toSlice.Decodes body)
    (p : Program.Instruction) (command : Command) (h : p.Given same command)
    (hkinds : p.WellKinded) :
    ∃ i, command.fragment.DecodesAs i ∧ p.Is (fun body k => k.toSlice.Decodes body) i := by
  -- The encoding is that of the first format that fits and is not shadowed.
  obtain ⟨given, e, position, hgiven, hencoded⟩ := h
  obtain ⟨format, hformat, hencode, hshadow⟩ := Listing.firstEncoding_eq_ok _ _ _ _ hencoded
  obtain ⟨hmem, hname⟩ := List.mem_filter.mp hformat
  refine ⟨⟨format.name, format.held given⟩, ?_, ?_⟩
  · exact format.decodesAs given e _ hmem hencode hshadow
  · -- Encoding has checked that there is an operand for each field.
    have hlength : given.length = format.fields.length := by
      unfold Opcode.Format.encode at hencode
      split at hencode
      · cases hencode
      · omega
    have hheld := given_held hsame format.fields _ _ hgiven hlength (hkinds format hformat)
    refine ⟨(eq_of_beq hname).symm, ?_⟩
    -- None of the operands is a mark, so no operand is left out of the program.
    rw [List.filter_eq_self.mpr]
    · exact hheld.imp fun _ _ h => h.1
    · intro o ho
      obtain ⟨_, _, _, hplain⟩ := forall₂_mem_right _ _ hheld o ho
      rw [hplain]
      rfl

/-- Nested programs matter only as far as they occur. -/
private theorem Instruction.Given.imp_of_mem {same same' : Program → Fragment → Prop}
    (i : Program.Instruction) (command : Command) (h : i.Given same command)
    (himp : ∀ body f, .code body ∈ i.operands → same body f → same' body f) :
    i.Given same' command := by
  obtain ⟨given, e, position, hgiven, hencoded⟩ := h
  refine .intro given e position ?_ hencoded
  -- Each operand is one of the instruction, so its nested program is one that occurs.
  refine List.Forall₂.imp ?_ ((List.forall₂_and_left _ _).mpr ⟨fun _ hp => hp, hgiven⟩)
  rintro p o ⟨hp, ho⟩
  cases ho with
  | integer v => exact .integer v
  | stack i => exact .stack i
  | control i => exact .control i
  | bits b => exact .bits b
  | cell f => exact .cell f
  | code hbody => exact .code (himp _ _ hp hbody)

/-- A slice that shows what a program was assembled into shows the program. -/
theorem Assembles.decodes (p : Program) (f : Fragment) (s : Slice) (h : p.Assembles f)
    (hkinds : p.WellKinded) (hs : s.Shows f.builder.bits f.builder.refs) : s.Decodes p := by
  -- Induction on the assembled program, for any slice that shows it.
  induction h generalizing s with
  | @intro p f same nested commands given packed ih =>
    obtain ⟨runs, hruns, hlinked⟩ := Listing.pack_linked commands f packed
    -- Each command is decoded as its instruction, nested programs by induction.
    have hdecodes : List.Forall₂ (fun (i : Program.Instruction) (command : Command) =>
        ∃ j, command.fragment.DecodesAs j ∧ i.Is (fun body k => k.toSlice.Decodes body) j)
        p commands := by
      refine List.Forall₂.imp ?_ ((List.forall₂_and_left _ _).mpr ⟨fun _ hi => hi, given⟩)
      rintro i command ⟨hi, hgiven⟩
      refine Instruction.Given.decodesAs (fun body g => same body g ∧ body.WellKinded) ?_ i
        command (hgiven.imp_of_mem _ _ fun body g hbody hg => ⟨hg, hkinds.body hi hbody⟩)
        (hkinds p (.self p) i hi)
      rintro body g ⟨hg, hwell⟩
      exact ih body g hg _ hwell (Slice.shows_cell g.builder)
    -- So there is one list of instructions that the commands are decoded as and that makes the
    -- program.
    obtain ⟨is, hp, hcommands⟩ := forall₂_exists
      (s := fun j (i : Program.Instruction) => i.Is (fun body k => k.toSlice.Decodes body) j)
      (t := fun j (command : Command) => command.fragment.DecodesAs j)
      (fun _ _ ⟨j, hj, hi⟩ => ⟨j, hi, hj⟩) p commands hdecodes
    -- The commands are packed in a chain, and the chain is scanned as its commands in order.
    have hscan := hlinked.scan runs f is s (by
      rw [hruns, List.forall₂_map_left_iff]
      exact hcommands.flip) hs
    refine (s.decodes_iff p).mpr ⟨is, ?_, hp.flip⟩
    rw [Decode.instructions?_eq_some, hscan]
    exact ⟨rfl, rfl⟩

/-- Decoding an assembled program finds exactly this program, whether or not equal cells are
    collapsed, as long as no two different cells of the tree share a digest. -/
theorem Assembles.loadCode_iff (p : Program) (f : Fragment) (collapse : Bool) (h : p.Assembles f)
    (hkinds : p.WellKinded) (distinct : collapse = true → f.builder.cell.DistinctDigests) :
    ∃ store root, loadCode f.builder.cell.toSlice collapse = .ok (store, root) ∧
      ∀ q, store.Holds root q ↔ q = p := by
  -- The cell shows the program, so loading finds it; and a place holds one program only.
  have hdecodes := h.decodes p f _ hkinds (Slice.shows_cell f.builder)
  obtain ⟨store, root, hload, _, hholds⟩ := hdecodes.load _ collapse p distinct
  refine ⟨store, root, hload, ?_⟩
  intro q
  constructor
  · intro hq
    exact hq.eq store root q p hholds
  · rintro rfl
    exact hholds

/-! ## A program with references, nested code and a cell -/

/-- A single instruction of a program that has no others. -/
def single (name : String) (operands : List Program.Operand) : Program :=
  [.mk name operands]

/-- A program that has an opaque cell, the same code in two references, and other code in its
    own bits. -/
def bothBranches : Program := [
  .mk "PUSHREF" [.cell (.data [true])],
  .mk "IFREFELSEREF" [.code (single "ADD" []), .code (single "ADD" [])],
  .mk "PUSHCONT" [.code (single "PUSHINT" [.integer 7])]]

/-- Bits that a line of source became, without references. -/
def lineFragment (digits : String) : Fragment :=
  ⟨⟨Opcode.hexBits digits, []⟩, .ofPosition ⟨"source", 1⟩⟩

/-- What `bothBranches` is assembled into. -/
def bothBranchesFragment : Fragment where
  builder := ⟨Opcode.hexBits "88E30F9177",
    [.data [true], .data (Opcode.hexBits "A0"), .data (Opcode.hexBits "A0")]⟩
  dbg := .mk ([0, 8, 24, 32].map (·, ⟨"source", 1⟩))
    [.empty, .ofPosition ⟨"source", 1⟩, .ofPosition ⟨"source", 1⟩]

/-- The first encoding of a mnemonic is taken if it works out. -/
theorem firstEncoding_first (name : String) (h : Opcode.Format)
    (formats : List Opcode.Format) (operands : List (CellCode.Operand Fragment)) (e : Encoding)
    (hformats : Opcode.standard.candidates name = h :: formats)
    (hencode : h.encode operands = .ok e)
    (hshadow : ∀ g ∈ Opcode.instructions, g.opcode <+: e.bits →
      ¬ h.opcode.length < g.opcode.length) :
    Listing.firstEncoding operands (Opcode.standard.candidates name) none = .ok e := by
  have hnone : Opcode.standard.shadowing? h e.bits = none := by
    -- A longer opcode at the start of the bits would be one that `hshadow` excludes.
    refine (Opcode.Table.findLonger?_eq_none _ _ _).mpr ?_
    intro g hg hpre hlt
    exact hshadow g hg hpre (by omega)
  rw [hformats]
  simp only [Listing.firstEncoding, Listing.tryEncode, hencode, hnone]

/-- A single instruction is assembled when it is encoded and packed. -/
private theorem single_assembles (name digits : String) (operands : List Program.Operand)
    (given : List (CellCode.Operand Fragment))
    (hgiven : List.Forall₂ (Operand.Given Assembles) operands given)
    (hencode : Listing.firstEncoding given (Opcode.standard.candidates name) none =
      .ok ⟨Opcode.hexBits digits, [], .empty⟩)
    (hpack : Listing.pack [.instruction ⟨Opcode.hexBits digits, [], .empty⟩ ⟨"source", 1⟩] =
      .ok (lineFragment digits)) :
    (single name operands).Assembles (lineFragment digits) :=
  .intro Assembles (fun _ _ h => h) _ (.cons (.intro given _ _ hgiven hencode) .nil) hpack

/-- The instruction that both branches have. -/
theorem assembles_add : (single "ADD" []).Assembles (lineFragment "A0") :=
  single_assembles "ADD" "A0" [] [] .nil
    (firstEncoding_first _ (Opcode.op "ADD" "A0" []) [] _ _ (by decide +kernel) rfl
      (by decide +kernel)) rfl

/-- The whole program: the code in the continuation, the opaque cell, and the two branches. -/
theorem assembles_bothBranches : bothBranches.Assembles bothBranchesFragment := by
  -- Each instruction is encoded by its first format; the rest puts them together.
  have hseven := single_assembles "PUSHINT" "77" [.integer 7] [.integer 7]
    (.cons (.integer 7) .nil)
    (firstEncoding_first _ (Opcode.op "PUSHINT" "7" [.tiny])
      [Opcode.op "PUSHINT" "80" [.signed 8], Opcode.op "PUSHINT" "81" [.signed 16]] _ _
      (by decide +kernel) rfl (by decide +kernel)) rfl
  have hcell := firstEncoding_first "PUSHREF" (Opcode.op "PUSHREF" "88" [.cell]) []
    [.code ⟨⟨[true], []⟩, .empty⟩ none] ⟨Opcode.hexBits "88", [.data [true]], .mk [] [.empty]⟩
    (by decide +kernel) rfl (by decide +kernel)
  have hbranches := firstEncoding_first "IFREFELSEREF"
    (Opcode.op "IFREFELSEREF" "E30F" [.code, .code]) []
    [.code (lineFragment "A0") none, .code (lineFragment "A0") none]
    ⟨Opcode.hexBits "E30F", [.data (Opcode.hexBits "A0"), .data (Opcode.hexBits "A0")],
      .mk [] [.ofPosition ⟨"source", 1⟩, .ofPosition ⟨"source", 1⟩]⟩
    (by decide +kernel) rfl (by decide +kernel)
  have hinline := firstEncoding_first "PUSHCONT" (Opcode.op "PUSHCONT" "9" [.inlineCode])
    [Opcode.opCut "PUSHCONT" "8E" 7 [.longInlineCode]] [.code (lineFragment "77") none]
    ⟨Opcode.hexBits "9177", [], .mk [(8, ⟨"source", 1⟩)] []⟩
    (by decide +kernel) rfl (by decide +kernel)
  exact .intro Assembles (fun _ _ h => h) _
    (.cons (.intro _ _ ⟨"source", 1⟩ (.cons (.cell ⟨⟨[true], []⟩, .empty⟩) .nil) hcell)
      (.cons (.intro _ _ ⟨"source", 1⟩
          (.cons (.code assembles_add) (.cons (.code assembles_add) .nil)) hbranches)
        (.cons (.intro _ _ ⟨"source", 1⟩ (.cons (.code hseven) .nil) hinline) .nil))) rfl

/-- Of a single instruction without nested code only the instruction matters. -/
private theorem single_wellKinded (name : String) (operands : List Program.Operand)
    (h : (Program.Instruction.mk name operands).WellKinded)
    (hplain : ∀ body : Program, .code body ∉ operands) : (single name operands).WellKinded := by
  refine (wellKinded_iff _).mpr ?_
  intro i hi
  obtain rfl := List.mem_singleton.mp hi
  exact ⟨h, fun body hbody => absurd hbody (hplain body)⟩

/-- The code in the branches. -/
theorem wellKinded_add : (single "ADD" []).WellKinded :=
  single_wellKinded "ADD" [] (by decide +kernel) (by simp)

/-- The whole program tells its cell from its programs. -/
theorem wellKinded_bothBranches : bothBranches.WellKinded := by
  have hseven := single_wellKinded "PUSHINT" [.integer 7] (by decide +kernel) (by simp)
  refine (wellKinded_iff _).mpr ?_
  simp only [bothBranches, List.forall_mem_cons]
  refine ⟨⟨by decide +kernel, ?_⟩, ⟨by decide +kernel, ?_⟩, ⟨by decide +kernel, ?_⟩, nofun⟩
  · simp [Instruction.operands]
  · simpa [Instruction.operands] using wellKinded_add
  · simpa [Instruction.operands] using hseven

/-- The program is found again even when its two equal branches are collapsed. -/
theorem loadCode_bothBranches :
    bothBranches.Assembles bothBranchesFragment ∧ bothBranches.WellKinded ∧
      bothBranchesFragment.builder.cell.DistinctDigests ∧
      ∃ store root, loadCode bothBranchesFragment.builder.cell.toSlice true = .ok (store, root) ∧
        ∀ q, store.Holds root q ↔ q = bothBranches := by
  -- Three different cells are reached, and their digests differ.
  have hdistinct : bothBranchesFragment.builder.cell.DistinctDigests :=
    Cell.distinctDigests_of_closed _
      [bothBranchesFragment.builder.cell, .data [true], .data (Opcode.hexBits "A0")]
      (by decide +kernel) (by decide +kernel) (by decide +kernel)
  exact ⟨assembles_bothBranches, wellKinded_bothBranches, hdistinct,
    Assembles.loadCode_iff _ _ true assembles_bothBranches wellKinded_bothBranches
      (fun _ => hdistinct)⟩

end Program

end CellCode
