import CellCode.Proofs.Listing.Collapsing

/-!
# Collapsed listings lose nothing

Where a collapsed listing leaves code out, the hash on the line says what is missing: it is written
out behind the one line of the listing that has the same hash and no note. Filling it in, and then
what was left out of that, and so on, ends with the listing that a printer writes which does not
collapse.

## Key results

- `CollapsedLines.written`: what is remembered was written out somewhere among the lines
- `CollapsedLines.expands`: the lines of a code are filled in to all its lines
- `printCode_collapsed`: a collapsed listing writes each code out once and loses nothing
-/

namespace CellCode.Listing

/-! ## Codes without jump tables -/

/-- Cells among the operands that are written out. -/
def LiteralLines : CellLines := fun printed c b printed' =>
  b = literalBraces c ∧ printed' = printed

/-- Cells that are written out change nothing of what is remembered. -/
theorem LiteralLines.cellTracked (printed : Printed) (c : Cell) (b : Braces) (printed' : Printed)
    (h : LiteralLines printed c b printed') : CellTracked printed c b printed' := by
  obtain ⟨rfl, rfl⟩ := h
  exact ⟨literalLines c, rfl, (silent_literalLines c).tracked _⟩

/-- Neither does a row of them. -/
theorem LiteralLines.through (printed printed' : Printed) (cells : List Cell) (bs : List Braces)
    (h : Through LiteralLines printed cells bs printed') :
    bs = cells.map literalBraces ∧ printed' = printed := by
  refine ⟨h.eq_map literalBraces fun _ _ _ _ _ h => h.1, ?_⟩
  -- Induction along the row.
  induction h with
  | nil => rfl
  | cons first _ ih => rw [ih, first.2]

/-- Where cells are written out no code opens. -/
theorem marks_literals (i : Instruction CodeId) (cells : List Cell) :
    (separated i (cells.map literalBraces)).flatMap Braces.marks = [] := by
  rw [marks_separated, List.flatMap_map]
  refine List.flatMap_eq_nil_iff.mpr ?_
  -- The opening of a cell is no mark, and nothing inside opens a code.
  intro c _
  have hopening : blockMark? (cellOpening c) = none := blockMark?_cellOpening [] c (by simp)
  have hinner := ((silent_literalLines c).setIn _ indentStep_blank).marks_eq
  simpa [Braces.marks, literalBraces, marks, hopening] using hinner

/-- The lines of the codes that a printer writes which does not collapse. -/
def fullInstruction (nested : CodeId → List Line) (i : Instruction CodeId) : List Line :=
  rows (head i) (separated i ((operandCells i).map literalBraces) ++
    (operandBlocks i).map fun block =>
      ⟨codeOpening block.2 false, setIn indentStep.toList (nested block.1)⟩)

/-- All lines of the code in a place, nested at most `depth` deep. -/
def fullLines (store : CodeStore) : (depth : Nat) → CodeId → List Line
  | 0, _ => []
  | depth + 1, id => (store.get id).flatMap (fullInstruction (fullLines store depth))

/-- Without collapsing the lines of a code do not depend on what is remembered. -/
theorem CodeLines.eq_full (store : CodeStore) (depth : Nat) (id : CodeId)
    (printed printed' : Printed) (ls : List Line)
    (h : CodeLines false (fun _ => LiteralLines) store depth id printed ls printed') :
    ls = fullLines store depth id := by
  -- Induction on the depth; instruction by instruction, and in each block by block.
  induction depth generalizing id printed printed' ls with
  | zero => exact h.1
  | succ depth ih =>
    obtain ⟨parts, hparts, rfl⟩ := h
    rw [fullLines, List.flatMap_def]
    congr 1
    refine hparts.eq_map _ ?_
    intro i _ printed part printed' hpart
    obtain ⟨operands, codes⟩ := hpart
    obtain ⟨rfl, rfl⟩ := LiteralLines.through _ _ _ _ operands
    rw [fullInstruction]
    congr 2
    refine codes.eq_map _ ?_
    intro block _ printed b printed' hblock
    cases hblock with
    | plain body => rw [ih _ _ _ _ body]
    | full _ body => rw [ih _ _ _ _ body]
    -- Nothing is left out when the printer does not collapse.
    | collapsed hcollapse => cases hcollapse

/-! ## Collapsed codes -/

/-- A block is the code of an operand. -/
private theorem mem_operandBlocks (i : Instruction CodeId) (block : CodeId × Option Cell)
    (h : block ∈ operandBlocks i) : .code block.1 block.2 ∈ i.operands := by
  obtain ⟨operand, hmem, hblock⟩ := List.mem_filterMap.mp h
  cases operand with
  | code body source =>
    cases hblock
    exact hmem
  | _ => cases hblock

/-- The lines of a code whose nested codes are left out when their cells are remembered. -/
abbrev CollapsedLines (store : CodeStore) (depth : Nat) : Nested :=
  CodeLines true (fun _ => LiteralLines) store depth

/-- A nested code only adds to what is remembered. -/
private theorem BlockLines.within (nested : Nested)
    (hnested : ∀ id printed ls printed', nested id printed ls printed' → Within printed printed')
    (block : CodeId × Option Cell) (printed : Printed) (b : Braces) (printed' : Printed)
    (h : BlockLines true nested printed block b printed') : Within printed printed' := by
  cases h with
  | plain body => exact hnested _ _ _ _ body
  | full _ body =>
    intro d hd
    exact hnested _ _ _ _ body d (Std.HashSet.mem_insert.mpr (.inr hd))
  | collapsed => exact fun _ hd => hd

private theorem InstructionLines.within (nested : Nested)
    (hnested : ∀ id printed ls printed', nested id printed ls printed' → Within printed printed')
    (i : Instruction CodeId) (printed : Printed) (part : List Line) (printed' : Printed)
    (h : InstructionLines true LiteralLines nested i printed part printed') :
    Within printed printed' := by
  obtain ⟨operands, codes⟩ := h
  obtain ⟨_, rfl⟩ := LiteralLines.through _ _ _ _ operands
  exact codes.within fun block _ => BlockLines.within nested hnested block

theorem CollapsedLines.within (store : CodeStore) (depth : Nat) (id : CodeId) (printed : Printed)
    (ls : List Line) (printed' : Printed) (h : CollapsedLines store depth id printed ls printed') :
    Within printed printed' := by
  -- Induction on the depth.
  induction depth generalizing id printed ls printed' with
  | zero =>
    obtain ⟨_, rfl⟩ := h
    exact fun _ hd => hd
  | succ depth ih =>
    obtain ⟨parts, hparts, _⟩ := h
    exact hparts.within fun i _ => InstructionLines.within _ ih i

/-- Code that came from a cell with this digest is in the place. -/
def LeadsTo (store : CodeStore) (d : Digest) (k : CodeId) : Prop :=
  ∃ id, ∃ i ∈ store.get id, ∃ c, .code k (some c) ∈ i.operands ∧ c.digest = d

/-- The lines are those of the code that came from a cell with this digest, wherever they were
    printed. No more is remembered behind them than what is kept. -/
def Shows (store : CodeStore) (kept : Printed) (d : Digest) (ls : List Line) : Prop :=
  ∃ depth k q printed printed', LeadsTo store d k ∧ store.Holds k q ∧ store.NestsWithin depth k ∧
    CollapsedLines store depth k printed ls printed' ∧ Within printed' kept

/-- More may be kept. -/
theorem Shows.mono (store : CodeStore) (kept kept' : Printed) (d : Digest) (ls : List Line)
    (h : Shows store kept d ls) (hkept : Within kept kept') : Shows store kept' d ls := by
  obtain ⟨depth, k, q, printed, printed', hleads, hholds, hnests, hlines, hwithin⟩ := h
  exact ⟨depth, k, q, printed, printed', hleads, hholds, hnests, hlines,
    fun d hd => hkept d (hwithin d hd)⟩

/-! ### What is remembered was written out -/

/-- What comes to be remembered at a nested code is this code, or it is written out in it. -/
private theorem blockLines_written (store : CodeStore) (nested : Nested)
    (block : CodeId × Option Cell)
    (hshows : ∀ c, block.2 = some c → ∀ printed ls printed', nested block.1 printed ls printed' →
      Shows store printed' c.digest ls)
    (hnested : ∀ printed ls printed', nested block.1 printed ls printed' → ∀ d ∈ printed',
      d ∉ printed → ∃ inner, Shows store printed' d inner ∧
        HasBody d.toHex.toList (setIn indentStep.toList inner) ls)
    (printed printed' : Printed) (b : Braces) (h : BlockLines true nested printed block b printed')
    (d : Digest) (hd : d ∈ printed') (hnew : d ∉ printed) :
    ∃ inner, Shows store printed' d inner ∧
      b.Has d.toHex.toList (setIn indentStep.toList inner) := by
  cases h with
  -- The code has no cell of its own, so the cell is one of its nested codes.
  | plain body =>
    obtain ⟨inner, hinner, hfound⟩ := hnested _ _ _ body d hd hnew
    exact ⟨inner, hinner, .inr (hfound.setIn _ indentStep_blank)⟩
  | @full _ k c ls _ body =>
    -- It is the cell of this code, or one that comes to be remembered inside.
    by_cases hself : c.digest = d
    · subst hself
      have hmark := blockMark?_codeOpening c false
      exact ⟨ls, hshows c rfl _ _ _ body, .inl ⟨hmark, rfl, deeper_setIn ls⟩⟩
    · have hstart : d ∉ printed.insert c.digest := by
        rw [Std.HashSet.mem_insert]
        simp [hself, hnew]
      obtain ⟨inner, hinner, hfound⟩ := hnested _ _ _ body d hd hstart
      exact ⟨inner, hinner, .inr (hfound.setIn _ indentStep_blank)⟩
  -- Code that is left out leads to nothing new.
  | collapsed => exact absurd hd hnew

/-- The code of a cell that comes to be remembered is written out somewhere among the lines. -/
theorem CollapsedLines.written (store : CodeStore) (hnamed : store.Named) (depth : Nat)
    (id : CodeId) (p : Program) (hholds : store.Holds id p) (hnests : store.NestsWithin depth id)
    (printed : Printed) (ls : List Line) (printed' : Printed)
    (h : CollapsedLines store depth id printed ls printed') (d : Digest) (hd : d ∈ printed')
    (hnew : d ∉ printed) :
    ∃ inner, Shows store printed' d inner ∧
      HasBody d.toHex.toList (setIn indentStep.toList inner) ls := by
  -- Induction on the depth.
  induction depth generalizing id p printed ls printed' d with
  | zero => cases hnests
  | succ depth ih =>
    obtain ⟨parts, hparts, rfl⟩ := h
    -- There is one instruction, and in it one nested code, at which the cell is remembered.
    obtain ⟨i, hi, part, hpart, _, after, hlines, hafter, hd, hnew⟩ := hparts.exists_new
      (fun i _ => InstructionLines.within _ (CollapsedLines.within store depth) i) d hd hnew
    obtain ⟨operands, codes⟩ := hlines
    obtain ⟨rfl, rfl⟩ := LiteralLines.through _ _ _ _ operands
    obtain ⟨block, hblock, b, hb, _, behind, hlines, hbehind, hd, hnew⟩ := codes.exists_new
      (fun block _ => BlockLines.within _ (CollapsedLines.within store depth) block) d hd hnew
    have hcode := mem_operandBlocks i block hblock
    have hdepth := hnests i hi block.1 block.2 hcode
    obtain ⟨q, hq, _⟩ := hholds.nested store id p i hi block.1 block.2 hcode
    obtain ⟨inner, hshows, hhas⟩ := blockLines_written store _ block
      (fun c hc printed ls printed' hlines => ⟨depth, block.1, q, printed, printed',
        ⟨id, i, hi, c, hc ▸ hcode, rfl⟩, hq, hdepth, hlines, fun _ hd => hd⟩)
      (ih block.1 q hq hdepth) _ _ b hlines d hd hnew
    have hkept : Within behind printed' := fun d hd => hafter d (hbehind d hd)
    have hbs : b ∈ separated i ((operandCells i).map literalBraces) ++ _ :=
      List.mem_append_right _ hb
    -- The code is written out in the lines of the instruction, and so in those of the whole code.
    have hfound := hasBody_rows _ _ _ (isHead_head i (hnamed id i hi)) _ b hbs hhas
    obtain ⟨front, back, rfl⟩ := List.append_of_mem hpart
    refine ⟨inner, hshows.mono _ _ _ _ _ hkept, ?_⟩
    rw [List.flatten_append, List.flatten_cons]
    exact hfound.append _ _

/-! ### What is left out is found -/

/-- A nested code is filled in if what is written out of it is, here or where it stands. -/
private theorem blockLines_expands (body? : List Char → Option (List Line)) (nested : Nested)
    (kept : Printed) (block : CodeId × Option Cell) (whole : List Line)
    (hnested : ∀ printed ls printed', nested block.1 printed ls printed' → Within printed' kept →
      Expands body? ls whole)
    (hfound : ∀ c, block.2 = some c → c.digest ∈ kept → ∃ inner,
      body? c.hash.toList = some (setIn indentStep.toList inner) ∧ Expands body? inner whole)
    (printed printed' : Printed) (b : Braces) (h : BlockLines true nested printed block b printed')
    (hwithin : Within printed' kept) :
    Braces.Expands body? b ⟨codeOpening block.2 false, setIn indentStep.toList whole⟩ := by
  cases h with
  -- Code that is written out is kept, with its lines filled in.
  | plain body =>
    refine .keep _ ?_ ((hnested _ _ _ body hwithin).setIn _ indentStep_blank)
    rw [blockMark?_none _ (by simp [codeOpening])]
    simp
  | full _ body =>
    refine .keep _ ?_ ((hnested _ _ _ body hwithin).setIn _ indentStep_blank)
    rw [blockMark?_codeOpening]
    simp
  -- Code that is left out is filled in from where its hash was written out, and the note goes.
  | @collapsed _ c _ old =>
    obtain ⟨inner, hbody, hinner⟩ := hfound c rfl (hwithin _ old)
    have hopening : codeOpening (some c) true = codeOpening (some c) false ++ collapsedNote := by
      simp [codeOpening]
    have hmark := blockMark?_codeOpening c true
    rw [hopening] at hmark ⊢
    exact .fill _ _ hmark hbody (hinner.setIn _ indentStep_blank)

/-- Filled in part by part. -/
theorem Expands.flatten (body? : List Char → Option (List Line)) (parts parts' : List (List Line))
    (h : List.Forall₂ (Expands body?) parts parts') :
    Expands body? parts.flatten parts'.flatten := by
  -- Induction on the parts.
  induction h with
  | nil => exact .nil
  | cons hpart _ ih => exact hpart.append ih

/-- The lines of a code are filled in to all its lines, if for what is remembered the lines are
    found with which it was written out. -/
theorem CollapsedLines.expands (body? : List Char → Option (List Line)) (store : CodeStore)
    (hshared : store.Shared) (hnamed : store.Named)
    (kept : Printed) (hkept : ∀ d ∈ kept, ∃ inner, Shows store kept d inner ∧
      body? d.toHex.toList = some (setIn indentStep.toList inner))
    (depth : Nat) (id : CodeId) (hnests : store.NestsWithin depth id) (depth' : Nat)
    (hnests' : store.NestsWithin depth' id) (printed : Printed) (ls : List Line)
    (printed' : Printed) (h : CollapsedLines store depth' id printed ls printed')
    (hwithin : Within printed' kept) :
    Expands body? ls (fullLines store depth id) := by
  -- A code that is left out may have been written out where another depth was left, so the
  -- induction is on how deep the codes nest, and the lines have a depth of their own.
  induction depth generalizing id depth' printed ls printed' with
  | zero => cases hnests
  | succ depth ih =>
    cases depth' with
    | zero => cases hnests'
    | succ depth' =>
      obtain ⟨parts, hparts, rfl⟩ := h
      rw [fullLines, List.flatMap_def]
      apply Expands.flatten
      rw [List.forall₂_map_right_iff]
      -- Each instruction ends where no more is remembered than at the end, so what it leaves out
      -- can be found.
      have hall := hparts.forall₂
        fun i _ => InstructionLines.within _ (CollapsedLines.within store depth') i
      refine List.Forall₂.flip (forall₂_imp_mem _ _ ?_ hall)
      rintro i hi part _ ⟨_, after, hlines, hafter⟩
      obtain ⟨operands, codes⟩ := hlines
      obtain ⟨rfl, rfl⟩ := LiteralLines.through _ _ _ _ operands
      refine Expands.rows _ (isHead_head i (hnamed id i hi)) _ _ (List.rel_append ?_ ?_)
      · -- Cells that are written out have no marks, so nothing of them is filled in.
        refine List.forall₂_same.mpr fun b hb => .of_marks b ?_
        exact List.flatMap_eq_nil_iff.mp (marks_literals i (operandCells i)) b hb
      · rw [List.forall₂_map_right_iff]
        have hblocks := codes.forall₂
          fun block _ => BlockLines.within _ (CollapsedLines.within store depth') block
        refine List.Forall₂.flip (forall₂_imp_mem _ _ ?_ hblocks)
        rintro block hblock b _ ⟨_, behind, hlines, hbehind⟩
        have hcode := mem_operandBlocks i block hblock
        have hdepth := hnests i hi block.1 block.2 hcode
        refine blockLines_expands body? _ kept block _ (ih block.1 hdepth depth'
          (hnests' i hi block.1 block.2 hcode)) ?_ _ _ b hlines
          fun d hd => hwithin d (hafter d (hbehind d hd))
        intro c hc hold
        obtain ⟨inner, ⟨depth'', k, _, _, _, hleads, _, hnests'', hinner, hbody⟩, hfound⟩ :=
          hkept c.digest hold
        -- Equal cells are led to one place, so it is this code that was written out.
        obtain ⟨id', i', hi', c', hcode', hdigest⟩ := hleads
        rw [hc] at hcode
        obtain rfl := hshared id' id i' i k block.1 c' c hi' hi hcode' hcode hdigest
        -- It was written out with a depth that is enough for its nested codes, so the induction
        -- applies to it.
        exact ⟨inner, hfound, ih block.1 hdepth depth'' hnests'' _ _ _ hinner hbody⟩

/-! ## Printing succeeds -/

/-- Code can be printed if its cells can. -/
theorem printCodeTo_succeeds (collapse : Bool) (cellText : CellPrinter) (store : CodeStore)
    (hcells : ∀ id, ∀ i ∈ store.get id, ∀ c pad,
      Print.Gives (cellText i c pad) (fun _ => True) (fun _ => False))
    (depth : Nat) (id : CodeId) (pad : String) :
    Print.Gives (printCodeTo collapse cellText store depth id pad) (fun _ => True)
      (fun _ => False) := by
  -- Induction on the depth.
  induction depth generalizing id pad with
  | zero => exact .pure _ _ trivial
  | succ depth ih =>
    -- A block is left out, or printed one level further down.
    have hblock (source : Option Cell) (k : CodeId) (pad : String) :
        Print.Gives (printBlock collapse source pad (printCodeTo collapse cellText store depth k))
          (fun _ => True) (fun _ => False) := by
      cases source with
      | none => exact .bind _ _ _ _ (ih k _) fun _ _ => .pure _ _ trivial
      | some c =>
        refine .bind _ _ _ _ .get fun printed _ => ?_
        split
        · exact .pure _ _ trivial
        · exact .bind _ _ _ _ (.modified _) fun _ _ =>
            .bind _ _ _ _ (ih k _) fun _ _ => .pure _ _ trivial
    -- A row is printed if each of its members is.
    have hrow {α β : Type} (f : α → Print β) (as : List α)
        (hf : ∀ a ∈ as, Print.Gives (f a) (fun _ => True) (fun _ => False)) :
        Print.Gives (as.mapM f) (fun _ => True) (fun _ => False) := by
      have hsame : List.Forall₂ (· = ·) as as := List.forall₂_refl as
      refine .imp _ _ _ (fun _ _ => trivial) (.mapM (fun _ _ => True) f as as hsame ?_)
      rintro a ha _ _ rfl
      exact hf a ha
    refine .bind _ _ _ _ (hrow _ _ ?_) fun _ _ => .pure _ _ trivial
    intro i hi
    -- First the cells among the operands, and then the nested codes.
    refine .bind _ _ _ _ (hrow _ _ fun c _ => hcells id i hi c pad) fun _ _ => ?_
    exact .bind _ _ _ _ (hrow _ _ fun block _ => hblock block.2 block.1 pad)
      fun _ _ => .pure _ _ trivial

/-! ## Listings -/

/-- What stands for a hash in some lines is made up of lines. -/
private theorem newline_fullBody? (hash : List Char) (ls body : List Line)
    (hls : ∀ l ∈ ls, '\n' ∉ l) (h : fullBody? ls hash = some body) : ∀ l ∈ body, '\n' ∉ l := by
  -- Induction on the lines, to the first that opens the code of the hash.
  induction ls with
  | nil => cases h
  | cons l ls ih =>
    obtain ⟨_, hls⟩ := List.forall_mem_cons.mp hls
    rw [fullBody?] at h
    split at h
    · cases h
      intro inner hinner hmem
      obtain ⟨l', hl', rfl⟩ := List.mem_map.mp hinner
      exact hls l' (List.takeWhile_subset _ hl') (List.mem_of_mem_drop hmem)
    · exact ih hls h

/-- Lines that are set in have no line break, so the lines themselves have none. -/
private theorem newline_of_setIn (pad : Line) (ls : List Line) (h : ∀ l ∈ setIn pad ls, '\n' ∉ l) :
    ∀ l ∈ ls, '\n' ∉ l := by
  intro l hl hmem
  exact h _ (List.mem_map_of_mem hl) (List.mem_append_right pad hmem)

/-- The lines that stand for the hash in a listing are the code that came from the cell with this
    hash: what they leave out filled in, they are what is printed of it in full. -/
def WrittenOut (store : CodeStore) (ls : List Line) (hash : List Char) : Prop :=
  ∃ id, ∃ i ∈ store.get id, ∃ k c body code printed, .code k (some c) ∈ i.operands ∧
    c.hash.toList = hash ∧ fullBody? ls hash = some body ∧
    (printCode false store k "").run ∅ = (.ok code, printed) ∧
    Expands (fullBody? ls) body (setIn indentStep.toList (lines code))

section

variable (store : CodeStore) (hunmarked : ∀ id, ∀ i ∈ store.get id, i.isMarked = false)

include hunmarked

/-- Code without marks can be printed. -/
theorem printCode_succeeds (collapse : Bool) (id : CodeId) (pad : String) (printed : Printed) :
    ∃ text printed', (printCode collapse store id pad).run printed = (.ok text, printed') := by
  have hgives := printCodeTo_succeeds collapse (tablePrinter collapse) store (by
    intro id i hi c pad
    rw [tablePrinter, if_neg (by simp [hunmarked id i hi])]
    exact .pure _ _ trivial) (store.size + 1) id pad
  -- Nothing is allowed to fail, so something is printed.
  rcases hgives printed with ⟨text, printed', hrun, _⟩ | ⟨_, _, _, hfalse⟩
  · exact ⟨text, printed', hrun⟩
  · cases hfalse

/-- Code without marks is printed as its lines, with cells written out. -/
private theorem printCode_lines (collapse : Bool) (id : CodeId) (pad text : String)
    (printed printed' : Printed) (hpad : ∀ ch ∈ pad.toList, ch = ' ')
    (h : (printCode collapse store id pad).run printed = (.ok text, printed')) :
    ∃ ls, CodeLines collapse (fun _ => LiteralLines) store (store.size + 1) id printed ls printed' ∧
      text.toList = unlines (setIn pad.toList ls) := by
  refine printCodeTo_lines collapse (tablePrinter collapse) _ store _ id pad text printed printed'
    hpad ?_ h
  intro id i hi c _ pad _ printed text printed' hrun
  -- The instruction is not marked, so its cell is no jump table.
  rw [tablePrinter, if_neg (by simp [hunmarked id i hi])] at hrun
  cases hrun
  exact ⟨literalBraces c, ⟨rfl, rfl⟩, literal_toList pad c⟩

/-- Code without marks is printed in full as its lines. -/
private theorem printCode_full (id : CodeId) (pad text : String) (printed printed' : Printed)
    (hpad : ∀ ch ∈ pad.toList, ch = ' ')
    (h : (printCode false store id pad).run printed = (.ok text, printed')) :
    text.toList = unlines (setIn pad.toList (fullLines store (store.size + 1) id)) := by
  obtain ⟨_, hls, hlines⟩ :=
    -- The lines do not depend on what is remembered, so they are all lines of the code.
    printCode_lines store hunmarked false id pad text printed printed' hpad h
  obtain rfl := CodeLines.eq_full _ _ _ _ _ _ hls
  exact hlines

/-- The lines that stand for a hash are the code of its cell, if they are filled in to all its
    lines. -/
private theorem writtenOut_of_expands (ls : List Line) (d : Digest) (k : CodeId)
    (hleads : LeadsTo store d k) (inner : List Line)
    (hfound : fullBody? ls d.toHex.toList = some (setIn indentStep.toList inner))
    (hinner : Expands (fullBody? ls) inner (fullLines store (store.size + 1) k))
    (hnewline : ∀ l ∈ fullLines store (store.size + 1) k, '\n' ∉ l) :
    WrittenOut store ls d.toHex.toList := by
  obtain ⟨id, i, hi, c, hcode, rfl⟩ := hleads
  -- The code of the place can be printed in full, and its lines are those that are filled in.
  obtain ⟨code, _, hprinted⟩ := printCode_succeeds store hunmarked false k "" ∅
  have hlines := printCode_full store hunmarked k "" code ∅ _ (by simp) hprinted
  rw [String.toList_empty, setIn_none] at hlines
  rw [← lines_of_unlines code _ hlines hnewline] at hinner
  exact ⟨id, i, hi, k, c, _, code, _, hcode, rfl, hfound, hprinted,
    hinner.setIn _ indentStep_blank⟩

/-- A collapsed listing is filled in to the listing of a printer that does not collapse, and the
    code of each hash in it is written out. -/
theorem printCode_expands (hshared : store.Shared) (hnamed : store.Named) (root : CodeId)
    (p : Program) (hholds : store.Holds root p) (pad : String) (hpad : ∀ ch ∈ pad.toList, ch = ' ')
    (text full : String) (printed printed' : Printed)
    (htext : (printCode true store root pad).run ∅ = (.ok text, printed))
    (hfull : (printCode false store root pad).run ∅ = (.ok full, printed')) :
    full.toList = unlines (lines full) ∧
      Expands (fullBody? (lines text)) (lines text) (lines full) ∧
      ∀ m ∈ marks (lines text), WrittenOut store (lines text) m.hash := by
  -- The lines of both listings, and what the marks of the first one say.
  obtain ⟨ls, hls, htextLines⟩ :=
    printCode_lines store hunmarked true root pad text ∅ printed hpad htext
  have hfullLines := printCode_full store hunmarked root pad full ∅ printed' hpad hfull
  have htracked := (CodeLines.tracked _ (fun _ => LiteralLines.cellTracked) store hnamed _ _ _ _ _
    hls).setIn _ hpad
  rw [lines_of_unlines text _ htextLines htracked.newline]
  have hnests := store.nestsWithin root p hholds
  -- What is remembered was written out once, so it is found.
  have hkept : ∀ d ∈ printed, ∃ inner, Shows store printed d inner ∧
      fullBody? (setIn pad.toList ls) d.toHex.toList = some (setIn indentStep.toList inner) := by
    intro d hd
    obtain ⟨inner, hshows, hbody⟩ :=
      CollapsedLines.written store hnamed _ root p hholds hnests _ _ _ hls d hd (by simp)
    have honce := htracked.tracks.onceInFull d.toHex.toList (by simp)
    exact ⟨inner, hshows, (hbody.setIn _ hpad).fullBody? honce.count_full_le⟩
  -- So all that is left out in these lines can be filled in.
  have hexpands := CollapsedLines.expands _ store hshared hnamed printed hkept
  have hbodies (hash : List Char) (body : List Line)
      (hbody : fullBody? (setIn pad.toList ls) hash = some body) : ∀ l ∈ body, '\n' ∉ l :=
    newline_fullBody? hash _ body htracked.newline hbody
  have hwhole := (hexpands _ root hnests _ hnests _ ls _ hls fun _ hd => hd).setIn _ hpad
  rw [lines_of_unlines full _ hfullLines (hwhole.newline hbodies htracked.newline)]
  refine ⟨hfullLines, hwhole, ?_⟩
  intro m hm
  -- The mark's cell is remembered at the end, so it was written out, and its code is filled in like
  -- the whole.
  obtain ⟨d, hd, hhash⟩ := htracked.tracks.mem m hm
  obtain ⟨inner, ⟨depth, k, q, _, _, hleads, hq, hdepth, hinner, hwithin⟩, hfound⟩ := hkept d hd
  have hbody := hexpands _ k (store.nestsWithin k q hq) depth hdepth _ inner _ hinner hwithin
  rw [hhash]
  exact writtenOut_of_expands store hunmarked _ d k hleads inner hfound hbody (hbody.newline hbodies
    (newline_of_setIn _ inner (hbodies _ _ hfound)))

end

/-- A collapsed listing of a program that was loaded, with its jump tables marked or not, writes
    out the code of each cell once, where its hash occurs first, and leaves it out wherever the hash
    occurs again. If nothing is marked, what is written out under a hash is the code of its cell,
    and filling in all that is left out ends with the listing of a printer that does not collapse,
    and with no other. -/
theorem printCode_collapsed (s : Slice) (distinct : s.cell.DistinctDigests)
    (store code : CodeStore) (root : CodeId) (hload : loadCode s true = .ok (store, root))
    (hcode : code = store ∨ code = (store.markJumpTables root).1) (pad : String)
    (hpad : ∀ ch ∈ pad.toList, ch = ' ') :
    (∀ text printed, (printCode true code root pad).run ∅ = (.ok text, printed) →
      text.toList = unlines (lines text) ∧ Braced (lines text) ∧
      ∀ hash, OnceInFull hash (marks (lines text)) ∧
        (marks (lines text)).count ⟨hash, true⟩ =
          (marks (lines text)).countP (·.hash = hash) - 1) ∧
    ((∀ id, ∀ i ∈ code.get id, i.isMarked = false) →
      ∃ text printed full printed',
        (printCode true code root pad).run ∅ = (.ok text, printed) ∧
        (printCode false code root pad).run ∅ = (.ok full, printed') ∧
        full.toList = unlines (lines full) ∧
        (∀ m ∈ marks (lines text), WrittenOut code (lines text) m.hash) ∧
        ∀ ls, Expands (fullBody? (lines text)) (lines text) ls ↔ ls = lines full) := by
  -- Loading gives a program, a place for equal cells, and proper names.
  obtain ⟨hloaded, p, _, hholds⟩ := loadCode_holds s true s.cell.Reaches store root
    (fun _ hc => hc.refs) s.reaches_of_mem_refs (fun _ => distinct) hload
  -- Marked code has the hashes and bodies of the loaded one.
  have hmarked : store.Marked code := by
    rcases hcode with rfl | rfl
    · exact .refl _ hloaded.unmarked
    · exact store.markJumpTables_marked root hloaded.unmarked
  have hnamed := hmarked.named (loadCode_named s true store root hload)
  refine ⟨?_, ?_⟩
  · -- Whatever is marked, the marks track what is remembered, which starts with nothing.
    intro text printed htext
    obtain ⟨hlines, htracked⟩ := printCode_tracked code hnamed root pad text hpad ∅ printed htext
    refine ⟨hlines, htracked.braced, ?_⟩
    intro hash
    have honce := htracked.tracks.onceInFull hash (by simp)
    exact ⟨honce, honce.count_collapsed⟩
  · -- Without marks both printers succeed.
    intro hunmarked
    obtain ⟨text, printed, htext⟩ := printCode_succeeds code hunmarked true root pad ∅
    obtain ⟨full, printed', hfull⟩ := printCode_succeeds code hunmarked false root pad ∅
    have hshared := hmarked.shared (loadCode_shared s store root hload)
    obtain ⟨hlines, hexpands, hwritten⟩ := printCode_expands code hunmarked hshared hnamed root p
      (hmarked.holds root p hholds) pad hpad text full printed printed' htext hfull
    refine ⟨text, printed, full, printed', htext, hfull, hlines, hwritten, ?_⟩
    intro ls
    -- Filling in has one outcome only, because what stands for a hash is found in one way.
    constructor
    · intro hls
      exact hls.unique hexpands
    · rintro rfl
      exact hexpands

/-- Both branches of `sameBranches` are one code, which is written out in the first. -/
theorem printCode_collapsed_sameBranches :
    sameBranches.DistinctDigests ∧
      loadCode sameBranches.toSlice true = .ok (sameBranchesStore, 0) ∧
      ∃ text printed full printed',
        (printCode true sameBranchesStore 0 "").run ∅ = (.ok text, printed) ∧
        (printCode false sameBranchesStore 0 "").run ∅ = (.ok full, printed') ∧
        (∀ hash, OnceInFull hash (marks (lines text))) ∧
        (∀ m ∈ marks (lines text), WrittenOut sameBranchesStore (lines text) m.hash) ∧
        ∀ ls, Expands (fullBody? (lines text)) (lines text) ls ↔ ls = lines full := by
  obtain ⟨honce, hrestored⟩ := printCode_collapsed sameBranches.toSlice distinctDigests_sameBranches
    sameBranchesStore sameBranchesStore 0 loadCode_sameBranches (.inl rfl) "" (by simp)
  -- None of the two codes has a mark.
  obtain ⟨text, printed, full, printed', htext, hfull, _, hwritten, hexpands⟩ := hrestored (by
    intro id i hi
    rcases id with _ | _ | id
    · rw [List.mem_singleton.mp hi]
      rfl
    · rw [List.mem_singleton.mp hi]
      rfl
    · cases hi)
  exact ⟨distinctDigests_sameBranches, loadCode_sameBranches, text, printed, full, printed', htext,
    hfull, fun hash => ((honce text printed htext).2.2 hash).1, hwritten, hexpands⟩

end CellCode.Listing
