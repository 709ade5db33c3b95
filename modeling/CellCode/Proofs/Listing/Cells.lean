import CellCode.Listing.Assemble
import CellCode.Proofs.Listing.Reading
import CellCode.Proofs.Program.Basic

/-!
# Reading printed cells

A printed cell is read as a term with the cell's bits and a term for each of its references.

* `ReadsAsCell`             text that is read as a cell, wherever one may stand
* `readsAsCell_of_content`  a cell in braces
* `readsAsParts_link`       one more reference behind what was read of a cell
* `readsAsCell_literal`     a cell that is written out
-/

namespace CellCode.Listing

/-- A cell may stand here: inside another cell, or as an operand. -/
inductive AllowsCell : Frames → Prop
  | cell (line : Nat) (blobs : List Blob) (children : List CellTerm) (rest : Frames) :
      AllowsCell (.cell line blobs children :: rest)
  | operand (line : Nat) (name : String) (operands : List Term) (blocks : List (List Item))
      (stage : Stage) (rest : Frames) (h : stage = .name ∨ stage = .comma) :
      AllowsCell (.instruction line name operands blocks stage :: rest)

/-- The text is read as a cell, wherever one may stand. -/
def ReadsAsCell (good : CellTerm → Prop) (text : String) : Prop :=
  ∀ line frames, AllowsCell frames → ∃ line' cell frames',
    Reads Anything text line frames line' frames' ∧ giveCell cell frames = some frames' ∧ good cell

/-- What is read as a cell may be good for a weaker reason. -/
theorem ReadsAsCell.imp {good good' : CellTerm → Prop} {text : String} (h : ReadsAsCell good text)
    (himp : ∀ cell, good cell → good' cell) : ReadsAsCell good' text := by
  intro line frames hframes
  obtain ⟨line', cell, frames', hreads, hgive, hgood⟩ := h line frames hframes
  exact ⟨line', cell, frames', hreads, hgive, himp cell hgood⟩

/-- The text is read as what stands between the braces of a cell. -/
def ReadsAsContent (good : CellTerm → Prop) (text : String) : Prop :=
  ∀ line at' rest, ∃ line' cell frames', Reads Anything text line (.cell at' [] [] :: rest) line'
    frames' ∧ closeBrace frames' = giveCell cell rest ∧ good cell

/-- So may what stands between its braces. -/
theorem ReadsAsContent.imp {good good' : CellTerm → Prop} {text : String}
    (h : ReadsAsContent good text) (himp : ∀ cell, good cell → good' cell) :
    ReadsAsContent good' text := by
  intro line at' rest
  obtain ⟨line', cell, frames', hreads, hclose, hgood⟩ := h line at' rest
  exact ⟨line', cell, frames', hreads, hclose, himp cell hgood⟩

/-- The text is read as raw bits and references of a cell. -/
def ReadsAsParts (good : List Blob → List CellTerm → Prop) (text : String) : Prop :=
  ∀ line at' rest, ∃ line' blobs children, Reads Anything text line (.cell at' [] [] :: rest) line'
    (.cell at' blobs children :: rest) ∧ good blobs children

/-- Bits and references are the content of a cell that is written out. -/
theorem readsAsContent_of_parts (good : CellTerm → Prop) (text : String)
    (h : ReadsAsParts (fun blobs children => ∀ line, good (.raw line blobs children)) text) :
    ReadsAsContent good text := by
  intro line at' rest
  obtain ⟨line', blobs, children, hreads, hgood⟩ := h line at' rest
  exact ⟨line', .raw at' blobs children, _, hreads, rfl, hgood at'⟩

/-- A cell as an operand. -/
theorem readsAsTerm_of_cell (good : CellTerm → Prop) (goodTerm : Term → Prop) (text : String)
    (hgood : ∀ cell, good cell → goodTerm (.cell cell)) (h : ReadsAsCell good text) :
    ReadsAsTerm goodTerm text := by
  intro line at' name operands stage rest hstage
  obtain ⟨line', cell, frames', hreads, hgive, hcell⟩ :=
    -- An operand is one of the places in which a cell may stand.
    h line _ (.operand at' name operands [] stage rest hstage)
  rw [giveCell, giveOperand, if_pos hstage] at hgive
  · cases hgive
    exact ⟨line', .cell cell, hreads.weaken, hgood cell hcell⟩
  · intro line blobs cells others heq
    cases heq

/-! ## Cells in braces -/

/-- A hash stands on one line, with the sign before it. -/
theorem hash_ne_newline (c : Cell) : ∀ ch ∈ (" #" ++ c.hash).toList, ch ≠ '\n' := by
  intro ch hch
  rw [String.toList_append] at hch
  rcases List.mem_append.mp hch with hch | hch
  · have hsign : " #".toList.all (· ≠ '\n') := by decide
    exact of_decide_eq_true (List.all_eq_true.mp hsign ch hch)
  · rintro rfl
    exact absurd (c.isHexDigit_hash _ hch) (by decide)

/-- The word that introduces a cell, its brace, and the hash as a comment. -/
private theorem reads_openCell (cell : Cell) (line : Nat) (frames : Frames)
    (h : AllowsCell frames) :
    Reads Anything (openCell cell) line frames (line + 1) (.cell line [] [] :: frames) := by
  -- The word is read as a directive, where a cell may stand.
  have hword : Reads Anything ".cell" line frames line (.cellWord line :: frames) := by
    refine Reads.token '.' ['c', 'e', 'l', 'l'] .cell rfl (by decide) (by decide) ?_ nofun ?_
    · intro rest _
      rfl
    · cases h with
      | cell => rfl
      | operand at' name operands blocks stage rest hstage =>
        simp only [take, allowsOperand, hstage, decide_true, if_true]
  -- The brace opens the cell that the word announced.
  have hopen : Reads Anything "\x7b" line (.cellWord line :: frames) line
      (.cell line [] [] :: frames) := Reads.opening _ _ _ rfl
  have hnote := Reads.comment (" #" ++ cell.hash) line (.cell line [] [] :: frames)
    (hash_ne_newline cell)
  have hall := hword.trans ((Reads.space _ _).trans
    (hopen.trans ((Reads.space _ _).trans hnote)))
  rw [openCell, show (".cell \x7b ;; #" : String) = ".cell" ++ (" " ++ ("\x7b" ++ (" " ++
    (";;" ++ " #")))) from rfl]
  simpa only [String.append_assoc] using hall

/-- A cell is read as what stands between its braces. -/
theorem readsAsCell_of_content (good : CellTerm → Prop) (cell : Cell) (body pad : String)
    (hbody : ReadsAsContent good body) (hpad : ∀ c ∈ pad.toList, c = ' ') :
    ReadsAsCell good (openCell cell ++ body ++ pad ++ "\x7d") := by
  intro line frames hframes
  obtain ⟨line₁, term, frames₁, hreads₁, hclose, hgood⟩ := hbody (line + 1) line frames
  -- Wherever it may stand, the cell is taken there when its brace closes.
  have hgive : ∃ frames', giveCell term frames = some frames' := by
    cases hframes with
    | cell => exact ⟨_, rfl⟩
    | operand at' name operands blocks stage rest hstage =>
      refine ⟨.instruction at' name (operands ++ [.cell term]) blocks .operand :: rest, ?_⟩
      rw [giveCell, giveOperand, if_pos hstage]
      intro line blobs cells others heq
      cases heq
  obtain ⟨frames', hgive⟩ := hgive
  refine ⟨line₁, term, frames', ?_, hgive, hgood⟩
  -- The opening, the content, blanks and the closing brace, one after the other.
  have hall := (reads_openCell cell line frames hframes).trans (hreads₁.trans
    ((Reads.blank pad _ _ hpad).trans (Reads.closing line₁ _ _ (hclose.trans hgive))))
  simpa only [String.append_assoc] using hall

/-! ## Bits and references -/

/-- The raw bits of a term are these; a term without raw bits has none. -/
def BlobsSpell (blobs : List Blob) (bits : Bits) : Prop :=
  (blobs = [] ∧ bits = []) ∨ ∃ line, blobs = [⟨line, bitsText bits⟩]

/-- A line of raw bits inside a cell. -/
theorem reads_blob (pad : String) (bits : Bits) (line at' : Nat) (rest : Frames)
    (hpad : ∀ c ∈ pad.toList, c = ' ') :
    Reads Anything (pad ++ ".blob " ++ bitsText bits ++ "\n") line (.cell at' [] [] :: rest)
      (line + 1) (.cell at' [⟨line, bitsText bits⟩] [] :: rest) := by
  -- The directive announces raw bits.
  have hword : Reads Anything ".blob" line (.cell at' [] [] :: rest) line
      (.blob line :: .cell at' [] [] :: rest) := by
    refine Reads.token '.' ['b', 'l', 'o', 'b'] .blob rfl (by decide) (by decide) ?_ nofun rfl
    intro more _
    rfl
  -- The literal stands behind it, whatever follows.
  have hbits : Reads Anything (bitsText bits) line (.blob line :: .cell at' [] [] :: rest) line
      (.cell at' [⟨line, bitsText bits⟩] [] :: rest) := by
    obtain ⟨cs, htext, _⟩ := tokenAt_bitsText bits []
    refine Reads.token 'x' cs (.literal (bitsText bits)) htext (by decide) (by decide) ?_ nofun rfl
    intro more _
    obtain ⟨cs', htext', htoken⟩ := tokenAt_bitsText bits more
    rw [htext] at htext'
    obtain ⟨_, rfl⟩ := List.cons.inj htext'
    exact htoken
  have hall := (Reads.blank pad line _ hpad).trans (hword.trans
    ((Reads.space _ _).trans (hbits.trans (Reads.newline line _))))
  rw [show (".blob " : String) = ".blob" ++ " " from rfl]
  simpa only [String.append_assoc] using hall

/-- A line of bits, or nothing where there are none, is read as the raw bits of a cell. -/
theorem readsAsParts_blobLine (pad : String) (bits : Bits) (hpad : ∀ c ∈ pad.toList, c = ' ') :
    ReadsAsParts (fun blobs children => BlobsSpell blobs bits ∧ children = [])
      (blobLine pad bits) := by
  intro line at' rest
  unfold blobLine
  -- Without bits there is no line.
  split
  · rename_i hempty
    exact ⟨line, [], [], Reads.nothing line _, .inl ⟨rfl, List.isEmpty_iff.mp hempty⟩, rfl⟩
  · exact ⟨line + 1, _, [], reads_blob pad bits line at' rest hpad, .inr ⟨line, rfl⟩, rfl⟩

/-- One more reference behind what was read of a cell. -/
theorem readsAsParts_link (good : CellTerm → Cell → Prop) (cell ref : Cell)
    (front body pad : String)
    (hfront : ReadsAsParts (fun blobs children => BlobsSpell blobs cell.bits ∧
      List.Forall₂ good children cell.refs) front)
    (hbody : ReadsAsContent (good · ref) body) (hpad : ∀ c ∈ pad.toList, c = ' ') :
    ReadsAsParts (fun blobs children => BlobsSpell blobs (Cell.link cell ref).bits ∧
      List.Forall₂ good children (Cell.link cell ref).refs)
      (front ++ pad ++ openCell ref ++ body ++ pad ++ "\x7d\n") := by
  intro line at' rest
  obtain ⟨line₁, blobs, children, hreads₁, hblobs, hchildren⟩ := hfront line at' rest
  obtain ⟨line₂, term, frames₂, hreads₂, hgive, hterm⟩ :=
    readsAsCell_of_content (good · ref) ref body pad hbody hpad line₁ _
      (.cell at' blobs children rest)
  -- The cell is put behind the children that were read before.
  cases hgive
  refine ⟨line₂ + 1, blobs, children ++ [term], ?_, hblobs, ?_⟩
  · have hall := hreads₁.trans ((Reads.blank pad _ _ hpad).trans
      (hreads₂.trans (Reads.newline line₂ _)))
    rw [show ("\x7d\n" : String) = "\x7d" ++ "\n" from rfl]
    simpa only [String.append_assoc] using hall
  · rw [Cell.refs_link]
    exact List.rel_append hchildren (.cons hterm .nil)

/-! ## Cells written out -/

/-- The term writes the cell out: its bits, and a term for each reference. -/
inductive IsLiteral : CellTerm → Cell → Prop
  | intro {line : Nat} {blobs : List Blob} {children : List CellTerm} {c : Cell}
      (same : CellTerm → Cell → Prop) (nested : ∀ t r, same t r → IsLiteral t r)
      (bits : BlobsSpell blobs c.bits) (refs : List.Forall₂ same children c.refs) :
      IsLiteral (.raw line blobs children) c

/-- Blanks with one more step are blanks. -/
theorem indent_blank (pad : String) (h : ∀ c ∈ pad.toList, c = ' ') :
    ∀ c ∈ (pad ++ indentStep).toList, c = ' ' := by
  intro c hc
  rw [String.toList_append] at hc
  rcases List.mem_append.mp hc with hc | hc
  · exact h c hc
  · have hstep : indentStep.toList.all (· = ' ') := by decide
    exact of_decide_eq_true (List.all_eq_true.mp hstep c hc)

/-- The lines of a cell are read as its bits and a term for each of its references. -/
private theorem readsAsParts_literalBody (pad : String) (cell : Cell)
    (hpad : ∀ c ∈ pad.toList, c = ' ') :
    ReadsAsParts (fun blobs children => BlobsSpell blobs cell.bits ∧
      List.Forall₂ IsLiteral children cell.refs) (literalBody pad cell) := by
  -- Induction on the cell, along its links.
  induction cell generalizing pad with
  | data bits =>
    intro line at' rest
    obtain ⟨line', blobs, children, hreads, hblobs, rfl⟩ :=
      readsAsParts_blobLine pad bits hpad line at' rest
    exact ⟨line', blobs, [], hreads, hblobs, .nil⟩
  | link cell ref ihcell ihref =>
    refine readsAsParts_link IsLiteral cell ref _ _ pad (ihcell pad hpad) ?_ hpad
    apply readsAsContent_of_parts
    intro line at' rest
    obtain ⟨line', blobs, children, hreads, hblobs, hchildren⟩ :=
      ihref (pad ++ indentStep) (indent_blank pad hpad) line at' rest
    exact ⟨line', blobs, children, hreads,
      fun _ => .intro IsLiteral (fun _ _ h => h) hblobs hchildren⟩

/-- A cell that is written out is read as a term that writes it out. -/
theorem readsAsCell_literal (pad : String) (cell : Cell) (hpad : ∀ c ∈ pad.toList, c = ' ') :
    ReadsAsCell (IsLiteral · cell) (literal pad cell) := by
  refine readsAsCell_of_content _ cell _ pad ?_ hpad
  apply readsAsContent_of_parts
  intro line at' rest
  obtain ⟨line', blobs, children, hreads, hblobs, hchildren⟩ :=
    readsAsParts_literalBody (pad ++ indentStep) cell (indent_blank pad hpad) line at' rest
  exact ⟨line', blobs, children, hreads,
    fun _ => .intro IsLiteral (fun _ _ h => h) hblobs hchildren⟩

end CellCode.Listing
