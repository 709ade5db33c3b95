import CellCode.Proofs.Listing.Lines
import CellCode.Proofs.Listing.Printing

/-!
# Printed code, line by line

What the printer returns is a row of lines, and each instruction takes up lines of its own: a row
with its mnemonic and its inline operands, then its cells and its nested codes, each in braces. The
lines are the same whatever sets them in. What is printed of a nested code depends on what was
printed before, so the lines of a code are told together with what is remembered.

## Key results

- `Through`: members of two rows related one after the other
- `CodeLines`: the lines of a code, its nested codes included
- `printCodeTo_lines`: the printer returns these lines
-/

namespace CellCode.Listing

/-! ## Runs of the printer -/

/-- What comes second returns something only if the first does. -/
theorem Print.run_bind_eq_ok {α β : Type} (x : Print α) (f : α → Print β)
    (printed printed' : Printed) (b : β) :
    (x >>= f).run printed = (.ok b, printed') ↔
      ∃ a between, x.run printed = (.ok a, between) ∧ (f a).run between = (.ok b, printed') := by
  rw [Print.run_bind]
  -- Either the first has returned, and the second runs where it ended, or its error is that of
  -- both.
  cases x.run printed with
  | mk result between =>
    cases result with
    | ok a =>
      constructor
      · intro h
        exact ⟨a, between, rfl, h⟩
      · rintro ⟨_, _, heq, h⟩
        cases heq
        exact h
    | error e =>
      constructor
      · intro h
        cases h
      · rintro ⟨_, _, heq, _⟩
        cases heq

/-- Members of two rows related one after the other: each relation starts in the state in which the
    one before it ends. -/
inductive Through {σ α β : Type} (rel : σ → α → β → σ → Prop) :
    σ → List α → List β → σ → Prop
  | nil (s : σ) : Through rel s [] [] s
  | cons {s s₁ s₂ : σ} {a : α} {b : β} {as : List α} {bs : List β} (first : rel s a b s₁)
      (others : Through rel s₁ as bs s₂) : Through rel s (a :: as) (b :: bs) s₂

namespace Through

variable {σ α β γ δ : Type} {rel : σ → α → β → σ → Prop} {s s' : σ} {as : List α} {bs : List β}

/-- Each member of the second row may be replaced by one that looks the same. -/
theorem exists_map (rel' : σ → α → γ → σ → Prop) (f : β → δ) (g : γ → δ)
    (h : Through rel s as bs s')
    (himp : ∀ a ∈ as, ∀ s b s', rel s a b s' → ∃ c, rel' s a c s' ∧ f b = g c) :
    ∃ cs, Through rel' s as cs s' ∧ bs.map f = cs.map g := by
  -- Induction along the row: each relation keeps its states, and only the member that stands for it
  -- changes.
  induction h with
  | nil s => exact ⟨[], .nil s, rfl⟩
  | cons first _ ih =>
    obtain ⟨c, hc, hsame⟩ := himp _ (by simp) _ _ _ first
    obtain ⟨cs, hcs, hsames⟩ := ih fun a ha => himp a (by simp [ha])
    exact ⟨c :: cs, .cons hc hcs, by simp [hsame, hsames]⟩

/-- What each relation keeps is kept all the way. -/
theorem induct {motive : σ → List β → σ → Prop} (h : Through rel s as bs s')
    (nil : ∀ s, motive s [] s)
    (cons : ∀ a ∈ as, ∀ s s₁ s₂ b bs, rel s a b s₁ → motive s₁ bs s₂ → motive s (b :: bs) s₂) :
    motive s bs s' := by
  -- Induction along the row.
  induction h with
  | nil s => exact nil s
  | cons first _ ih =>
    exact cons _ (by simp) _ _ _ _ _ first (ih fun a ha => cons a (by simp [ha]))

end Through

/-- What is remembered first is remembered afterwards. -/
def Within (printed printed' : Printed) : Prop := ∀ d ∈ printed, d ∈ printed'

namespace Through

variable {α β : Type} {rel : Printed → α → β → Printed → Prop} {printed printed' : Printed}
  {as : List α} {bs : List β}

/-- What is remembered before a row is remembered behind it. -/
theorem within (h : Through rel printed as bs printed')
    (hrel : ∀ a ∈ as, ∀ printed b printed', rel printed a b printed' → Within printed printed') :
    Within printed printed' := by
  -- Induction along the row: what each relation remembers it passes on to the next one.
  induction h with
  | nil => exact fun _ hd => hd
  | cons first _ ih =>
    intro d hd
    exact ih (fun a ha => hrel a (by simp [ha])) d (hrel _ (by simp) _ _ _ first d hd)

/-- Each relation ends where no more is remembered than at the end. -/
theorem forall₂ (h : Through rel printed as bs printed')
    (hrel : ∀ a ∈ as, ∀ printed b printed', rel printed a b printed' → Within printed printed') :
    List.Forall₂ (fun a b => ∃ before after, rel before a b after ∧ Within after printed')
      as bs := by
  -- Induction along the row; the states behind a member are within that at the end by `within`.
  induction h with
  | nil => exact .nil
  | cons first others ih =>
    have hothers : ∀ a ∈ _, _ := fun a ha => hrel a (List.mem_cons_of_mem _ ha)
    exact .cons ⟨_, _, first, others.within hothers⟩ (ih hothers)

/-- What is remembered at the end only was remembered at one of the relations. -/
theorem exists_new (h : Through rel printed as bs printed')
    (hrel : ∀ a ∈ as, ∀ printed b printed', rel printed a b printed' → Within printed printed')
    (d : Digest) (hd : d ∈ printed') (hnew : d ∉ printed) :
    ∃ a ∈ as, ∃ b ∈ bs, ∃ before after, rel before a b after ∧ Within after printed' ∧
      d ∈ after ∧ d ∉ before := by
  -- Induction along the row.
  induction h with
  | nil => exact absurd hd hnew
  | @cons printed between _ a b as bs first others ih =>
    have hothers : ∀ a ∈ as, ∀ printed b printed', rel printed a b printed' →
        Within printed printed' := fun a ha => hrel a (by simp [ha])
    -- It is remembered behind the first relation, or comes to be later.
    by_cases hmem : d ∈ between
    · exact ⟨a, by simp, b, by simp, printed, between, first, others.within hothers, hmem, hnew⟩
    · obtain ⟨a', ha', b', hb', hrest⟩ := ih hothers hd hmem
      exact ⟨a', by simp [ha'], b', by simp [hb'], hrest⟩

/-- Members that are told by those of the first row. -/
theorem eq_map {σ : Type} {rel : σ → α → β → σ → Prop} {s s' : σ} (f : α → β)
    (h : Through rel s as bs s') (hrel : ∀ a ∈ as, ∀ s b s', rel s a b s' → b = f a) :
    bs = as.map f := by
  -- Induction along the row.
  induction h with
  | nil => rfl
  | cons first _ ih =>
    rw [List.map_cons, hrel _ (by simp) _ _ _ first, ih fun a ha => hrel a (by simp [ha])]

end Through

/-- A row of pieces is printed one after the other. -/
theorem run_mapM {α β : Type} (f : α → Print β) (as : List α) (bs : List β)
    (printed printed' : Printed) (h : (as.mapM f).run printed = (.ok bs, printed')) :
    Through (fun printed a b printed' => (f a).run printed = (.ok b, printed')) printed as bs
      printed' := by
  -- Induction on the pieces: the first one is printed, and the others from the state in which it
  -- ends.
  induction as generalizing bs printed with
  | nil =>
    cases h
    exact .nil _
  | cons a as ih =>
    rw [List.mapM_cons] at h
    obtain ⟨b, between, hfirst, h⟩ := (Print.run_bind_eq_ok _ _ _ _ _).mp h
    obtain ⟨bs', printed'', hothers, h⟩ := (Print.run_bind_eq_ok _ _ _ _ _).mp h
    cases h
    exact .cons hfirst (ih bs' between hothers)

/-! ## The lines of a code -/

/-- The lines of the codes that are nested, by place, with what is remembered before and after. -/
abbrev Nested := CodeId → Printed → List Line → Printed → Prop

/-- The braces around a cell among the operands. -/
abbrev CellLines := Printed → Cell → Braces → Printed → Prop

/-- The braces around a nested code. Code that came from a cell is left out if the printer
    collapses and remembers the cell. -/
inductive BlockLines (collapse : Bool) (nested : Nested) :
    Printed → CodeId × Option Cell → Braces → Printed → Prop
  | plain {printed printed' : Printed} {id : CodeId} {ls : List Line}
      (body : nested id printed ls printed') :
      BlockLines collapse nested printed (id, none)
        ⟨codeOpening none false, setIn indentStep.toList ls⟩ printed'
  | full {printed printed' : Printed} {id : CodeId} {c : Cell} {ls : List Line}
      (new : ¬ (collapse = true ∧ c.digest ∈ printed))
      (body : nested id (printed.insert c.digest) ls printed') :
      BlockLines collapse nested printed (id, some c)
        ⟨codeOpening (some c) false, setIn indentStep.toList ls⟩ printed'
  | collapsed {printed : Printed} {id : CodeId} {c : Cell} (collapses : collapse = true)
      (old : c.digest ∈ printed) :
      BlockLines collapse nested printed (id, some c) ⟨codeOpening (some c) true, []⟩ printed

/-- The row of an instruction: its mnemonic and its inline operands. -/
def head (i : Instruction CodeId) : Line :=
  i.name.toList ++
    if (inlineTexts i).isEmpty then [] else ' ' :: (", ".intercalate (inlineTexts i)).toList

/-- Cells among the operands, with what divides them from what stands before them. -/
def separated (i : Instruction CodeId) : List Braces → List Braces
  | [] => []
  | b :: bs => b.behind (if (inlineTexts i).isEmpty then [' '] else [',', ' ']) ::
      bs.map (·.behind [',', ' '])

/-- The lines of an instruction: its row, the braces around its cells, and the braces around its
    nested codes. -/
inductive InstructionLines (collapse : Bool) (cellLines : CellLines) (nested : Nested)
    (i : Instruction CodeId) : Printed → List Line → Printed → Prop
  | intro {printed between printed' : Printed} {cells blocks : List Braces}
      (operands : Through cellLines printed (operandCells i) cells between)
      (codes : Through (BlockLines collapse nested) between (operandBlocks i) blocks printed') :
      InstructionLines collapse cellLines nested i printed
        (rows (head i) (separated i cells ++ blocks)) printed'

/-- The lines of the code in a place, nested at most `depth` deep. -/
def CodeLines (collapse : Bool) (cellLines : Instruction CodeId → CellLines) (store : CodeStore) :
    (depth : Nat) → Nested
  | 0, _, printed, ls, printed' => ls = [] ∧ printed' = printed
  | depth + 1, id, printed, ls, printed' => ∃ parts,
      Through (fun printed i part printed' => InstructionLines collapse (cellLines i)
        (CodeLines collapse cellLines store depth) i printed part printed')
        printed (store.get id) parts printed' ∧ ls = parts.flatten

/-! ## The printer returns these lines -/

/-- A nested code is printed in braces. -/
private theorem printBlock_lines (collapse : Bool) (nested : Nested) (id : CodeId)
    (source : Option Cell) (pad : String) (body : String → Print String) (text : String)
    (printed printed' : Printed)
    (hbody : ∀ printed text printed',
      (body (pad ++ indentStep)).run printed = (.ok text, printed') →
        ∃ ls, nested id printed ls printed' ∧
          text.toList = unlines (setIn (pad ++ indentStep).toList ls))
    (h : (printBlock collapse source pad body).run printed = (.ok text, printed')) :
    ∃ b, BlockLines collapse nested printed (id, source) b printed' ∧
      text.toList = b.text pad.toList := by
  -- In all cases the text is the opening, the lines of the body set in, and the closing brace.
  have htext (opened : String) (code : String) (opening : Line) (ls : List Line)
      (hopened : opened.toList = opening)
      (hcode : code.toList = unlines (setIn (pad ++ indentStep).toList ls)) :
      (opened ++ "\n" ++ code ++ pad ++ "\x7d").toList =
        Braces.text pad.toList ⟨opening, setIn indentStep.toList ls⟩ := by
    simp [Braces.text, setIn_setIn, hopened, hcode]
  cases source with
  -- Code of no cell has no hash, so nothing is asked and nothing is remembered.
  | none =>
    obtain ⟨code, between, hcode, h⟩ := (Print.run_bind_eq_ok _ _ _ _ _).mp h
    obtain ⟨ls, hls, hlines⟩ := hbody _ _ _ hcode
    cases h
    refine ⟨_, .plain hls, ?_⟩
    rw [← htext " \x7b" code _ ls (by simp [codeOpening]) hlines]
    simp
  | some c =>
    have hopened : (" \x7b ;; #" ++ c.hash).toList = codeOpening (some c) false := by
      simp [codeOpening]
    obtain ⟨_, _, hget, h⟩ := (Print.run_bind_eq_ok _ _ _ _ _).mp h
    cases hget
    split at h
    · -- The hash was printed before, so the code is left out.
      rename_i hold
      rw [Bool.and_eq_true, Std.HashSet.contains_iff_mem] at hold
      cases h
      refine ⟨_, .collapsed hold.1 hold.2, ?_⟩
      simp [Braces.text, codeOpening, collapsedNote]
    · -- The hash is new, so it is noted and the code is written out.
      rename_i hnew
      rw [Bool.and_eq_true, Std.HashSet.contains_iff_mem] at hnew
      obtain ⟨_, _, hmodify, h⟩ := (Print.run_bind_eq_ok _ _ _ _ _).mp h
      cases hmodify
      obtain ⟨code, _, hcode, h⟩ := (Print.run_bind_eq_ok _ _ _ _ _).mp h
      obtain ⟨ls, hls, hlines⟩ := hbody _ _ _ hcode
      cases h
      exact ⟨_, .full hnew hls, htext _ code _ ls hopened hlines⟩

/-- Operands divided by commas, the first of them taken apart. -/
private theorem intercalate_cons (text : String) (texts : List String) :
    (", ".intercalate (text :: texts)).toList =
      text.toList ++ texts.flatMap fun text => [',', ' '] ++ text.toList := by
  -- Induction on the operands behind the first.
  induction texts generalizing text with
  | nil => simp
  | cons next texts ih =>
    rw [String.intercalate_cons_cons, String.toList_append, String.toList_append, ih]
    simp

/-- The operands of an instruction are its inline operands and, behind them, its cells. -/
private theorem operands_text (i : Instruction CodeId) (pad : Line) (texts : List String)
    (cells : List Braces) (hcells : texts.map String.toList = cells.map (Braces.text pad)) :
    i.name.toList ++ (if (inlineTexts i ++ texts).isEmpty then "" else
        " " ++ ", ".intercalate (inlineTexts i ++ texts)).toList =
      head i ++ (separated i cells).flatMap (Braces.text pad) := by
  -- Every operand but the first has a comma in front.
  have hothers (texts : List String) (cells : List Braces)
      (hcells : texts.map String.toList = cells.map (Braces.text pad)) :
      (texts.flatMap fun text => [',', ' '] ++ text.toList) =
        (cells.map (·.behind [',', ' '])).flatMap (Braces.text pad) := by
    have hmap := congrArg (List.flatMap fun text => [',', ' '] ++ text) hcells
    simpa [List.flatMap_map, Braces.text_behind] using hmap
  cases texts with
  -- Without cells the row is that of the inline operands.
  | nil =>
    obtain rfl : cells = [] := by simpa using hcells.symm
    cases hinline : inlineTexts i <;> simp [head, separated, hinline]
  | cons text texts =>
    cases cells with
    | nil => cases hcells
    | cons b bs =>
      obtain ⟨hfirst, hrest⟩ := List.cons.inj hcells
      have hrest := hothers texts bs hrest
      cases hinline : inlineTexts i with
      -- Without inline operands the first cell stands right behind the mnemonic.
      | nil =>
        simp only [List.nil_append, List.isEmpty_cons, Bool.false_eq_true, if_false, head, hinline,
          separated, List.isEmpty_nil, if_true, List.flatMap_cons, Braces.text_behind, ← hrest,
          String.toList_append, intercalate_cons, hfirst]
        simp
      -- Behind inline operands every cell has a comma in front.
      | cons first inline =>
        rw [if_neg (by simp), String.intercalate_append_of_ne_nil (by simp) (by simp)]
        simp only [List.isEmpty_cons, Bool.false_eq_true, if_false, head, hinline,
          separated, List.flatMap_cons, Braces.text_behind, ← hrest,
          String.toList_append, intercalate_cons, hfirst]
        simp

/-- An instruction is printed as its lines. -/
private theorem printInstruction_lines (collapse : Bool) (cellText : CellPrinter)
    (cellLines : CellLines) (nested : CodeId → String → Print String) (nestedLines : Nested)
    (i : Instruction CodeId) (pad text : String) (printed printed' : Printed)
    (hcells : ∀ c ∈ operandCells i, ∀ printed text printed',
      (cellText i c pad).run printed = (.ok text, printed') →
        ∃ b, cellLines printed c b printed' ∧ text.toList = b.text pad.toList)
    (hnested : ∀ id printed text printed',
      (nested id (pad ++ indentStep)).run printed = (.ok text, printed') →
        ∃ ls, nestedLines id printed ls printed' ∧
          text.toList = unlines (setIn (pad ++ indentStep).toList ls))
    (h : (printInstruction collapse cellText nested i pad).run printed = (.ok text, printed')) :
    ∃ ls, InstructionLines collapse cellLines nestedLines i printed ls printed' ∧
      text.toList = unlines (setIn pad.toList ls) := by
  obtain ⟨cellTexts, between, hcellTexts, h⟩ := (Print.run_bind_eq_ok _ _ _ _ _).mp h
  obtain ⟨blockTexts, printed'', hblockTexts, h⟩ := (Print.run_bind_eq_ok _ _ _ _ _).mp h
  cases h
  -- Both rows of pieces are printed in order; each piece is replaced by the braces that it is the
  -- text of.
  obtain ⟨cells, hcellLines, hcellMap⟩ := (run_mapM _ _ _ _ _ hcellTexts).exists_map cellLines
    String.toList (Braces.text pad.toList) hcells
  obtain ⟨blocks, hblockLines, hblockMap⟩ :=
    (run_mapM _ _ _ _ _ hblockTexts).exists_map (BlockLines collapse nestedLines)
      String.toList (Braces.text pad.toList) (by
        intro block _ printed text printed' hrun
        exact printBlock_lines collapse nestedLines block.1 block.2 pad (nested block.1) text
          printed printed' (hnested block.1) hrun)
  refine ⟨_, .intro hcellLines hblockLines, ?_⟩
  have hoperands := operands_text i pad.toList cellTexts cells hcellMap
  have hblocks : blockTexts.flatMap String.toList = blocks.flatMap (Braces.text pad.toList) := by
    rw [List.flatMap_def, List.flatMap_def, hblockMap]
  rw [unlines_rows, List.flatMap_append, ← hblocks, List.append_assoc pad.toList,
    ← List.append_assoc (head i), ← hoperands]
  simp [String.toList_join]

/-- A code is printed as its lines, if its cells are printed as lines in braces. -/
theorem printCodeTo_lines (collapse : Bool) (cellText : CellPrinter)
    (cellLines : Instruction CodeId → CellLines) (store : CodeStore) (depth : Nat) (id : CodeId)
    (pad text : String) (printed printed' : Printed) (hpad : ∀ ch ∈ pad.toList, ch = ' ')
    (hcells : ∀ id, ∀ i ∈ store.get id, ∀ c ∈ operandCells i, ∀ pad : String,
      (∀ ch ∈ pad.toList, ch = ' ') → ∀ printed text printed',
        (cellText i c pad).run printed = (.ok text, printed') →
          ∃ b, cellLines i printed c b printed' ∧ text.toList = b.text pad.toList)
    (h : (printCodeTo collapse cellText store depth id pad).run printed = (.ok text, printed')) :
    ∃ ls, CodeLines collapse cellLines store depth id printed ls printed' ∧
      text.toList = unlines (setIn pad.toList ls) := by
  -- Induction on the depth: at depth zero nothing is printed.
  induction depth generalizing id pad text printed printed' with
  | zero =>
    cases h
    exact ⟨[], ⟨rfl, rfl⟩, rfl⟩
  | succ depth ih =>
    obtain ⟨texts, between, htexts, h⟩ := (Print.run_bind_eq_ok _ _ _ _ _).mp h
    cases h
    -- The lines of the instructions, one instruction after the other.
    obtain ⟨parts, hparts, hmap⟩ := (run_mapM _ _ _ _ _ htexts).exists_map
      (fun printed i part printed' => InstructionLines collapse (cellLines i)
        (CodeLines collapse cellLines store depth) i printed part printed')
      String.toList (fun part => unlines (setIn pad.toList part)) (by
        intro i hi printed text printed' hrun
        exact printInstruction_lines collapse cellText (cellLines i) _ _ i pad text printed printed'
          (fun c hc => hcells id i hi c hc pad hpad)
          (fun k printed text printed' => ih k _ text printed printed' (indent_blank pad hpad))
          hrun)
    refine ⟨parts.flatten, ⟨parts, hparts, rfl⟩, ?_⟩
    rw [String.toList_join, List.flatMap_def, hmap]
    -- What is left is that the texts of the instructions, put together, are the lines of all of
    -- them.
    clear hmap hparts
    induction parts with
    | nil => rfl
    | cons part parts ih => simp [ih]

/-! ## Cells written out -/

/-- The line of the bits of a cell, if there are any. -/
def blobLines (bits : Bits) : List Line :=
  if bits.isEmpty then [] else [(".blob " ++ bitsText bits).toList]

/-- The lines between the braces of a cell that is written out. -/
def literalLines : Cell → List Line
  | .data bits => blobLines bits
  | .link cell ref => literalLines cell ++
      (cellOpening ref :: (setIn indentStep.toList (literalLines ref) ++ [['\x7d']]))

/-- The braces around a cell that is written out. -/
def literalBraces (c : Cell) : Braces := ⟨cellOpening c, setIn indentStep.toList (literalLines c)⟩

/-- The printed bits of a cell are its lines. -/
theorem blobLine_toList (pad : String) (bits : Bits) :
    (blobLine pad bits).toList = unlines (setIn pad.toList (blobLines bits)) := by
  unfold blobLine blobLines
  split
  · rfl
  · simp

/-- The printed opening of a cell is its line. -/
theorem openCell_toList (c : Cell) : (openCell c).toList = cellOpening c ++ ['\n'] := by
  simp [openCell, cellOpening]

/-- What is printed between the braces of a cell are its lines. -/
private theorem literalBody_toList (pad : String) (c : Cell) :
    (literalBody pad c).toList = unlines (setIn pad.toList (literalLines c)) := by
  -- Induction on the cell, with any indentation: the earlier references, and then the last one,
  -- which is set in further.
  induction c generalizing pad with
  | data bits => exact blobLine_toList pad bits
  | link c ref ihc ihref =>
    have hinner := ihref (pad ++ indentStep)
    rw [String.toList_append, ← setIn_setIn] at hinner
    simp [literalBody, literalLines, openCell_toList, ihc pad, hinner]

/-- A cell that is written out is printed as its lines, whatever was printed before. -/
theorem literal_toList (pad : String) (c : Cell) :
    (literal pad c).toList = (literalBraces c).text pad.toList := by
  simp [literal, literalBraces, Braces.text, openCell_toList, literalBody_toList, setIn_setIn]

/-! ## What the rows hold -/

/-- Hexadecimal digits neither end a line nor start anything. -/
private theorem isPlain_of_hex (row : Line) (h : ∀ ch ∈ row, isHexDigit ch ∨ ch = '_') :
    IsPlain row := by
  intro ch hch
  refine ⟨?_, ?_, ?_⟩
  all_goals
    rintro rfl
    exact absurd (h _ hch) (by decide)

theorem isPlain_bitsText (bits : Bits) : IsPlain (bitsText bits).toList := by
  have hhex : IsPlain bits.toHex.toList := isPlain_of_hex _ (Bits.isHexDigit_toHex bits)
  have hopen : IsPlain ['x', '\x7b'] := by simp [IsPlain]
  have htext : (bitsText bits).toList = ['x', '\x7b'] ++ bits.toHex.toList ++ ['\x7d'] := by
    simp [bitsText]
  rw [htext]
  exact (hopen.append hhex).append isPlain_closing

theorem isPlain_integer (v : Int) : IsPlain (toString v).toList := by
  have hdigits (n : Nat) : IsPlain (Nat.toDigits 10 n) := by
    refine isPlain_of_hex _ fun ch hch => .inl ?_
    have hdigit := Text.isDigit_toDigits n ch hch
    simp [isHexDigit, hdigit]
  cases v with
  -- The digits alone, or a minus sign before them.
  | ofNat n =>
    rw [Text.toList_toString_ofNat]
    exact hdigits n
  | negSucc n =>
    rw [Text.toList_toString_negSucc, ← List.singleton_append]
    exact IsPlain.append (by simp [IsPlain]) (hdigits _)

private theorem isPlain_inlineText {κ : Type} (operand : Operand κ) (text : String)
    (h : (inlineText operand).toOption = some text) : IsPlain text.toList := by
  -- Numbers and bits are the only operands with an inline text.
  cases operand with
  | integer v =>
    cases h
    exact isPlain_integer v
  | stack v =>
    cases h
    simp only [toString, String.toList_append]
    exact IsPlain.append (by simp [IsPlain]) (isPlain_integer v)
  | control v =>
    cases h
    simp only [toString, String.toList_append]
    exact IsPlain.append (by simp [IsPlain]) (isPlain_integer v)
  | bits b =>
    cases h
    exact isPlain_bitsText b
  | cell => cases h
  | code => cases h
  | marker => cases h

private theorem isPlain_intercalate (texts : List String)
    (h : ∀ text ∈ texts, IsPlain text.toList) : IsPlain (", ".intercalate texts).toList := by
  have hcomma : IsPlain [',', ' '] := by simp [IsPlain]
  cases texts with
  | nil => simp [IsPlain]
  | cons text texts =>
    rw [intercalate_cons]
    refine (h text (by simp)).append ?_
    -- A character of the first operand, or of a comma, or of an operand behind one.
    intro ch hch
    obtain ⟨next, hnext, hch⟩ := List.mem_flatMap.mp hch
    exact hcomma.append (h next (by simp [hnext])) ch hch

/-- The characters of a name neither end a line nor start anything. -/
private theorem isPlain_name (name : String) (h : IsName name) : IsPlain name.toList := by
  obtain ⟨c, cs, hname, hc, hcs⟩ := h
  have hchars : ∀ ch ∈ name.toList, continuesName ch := by
    rw [hname]
    intro ch hch
    rcases List.mem_cons.mp hch with rfl | hch
    · simp [continuesName, hc]
    · exact hcs ch hch
  intro ch hch
  refine ⟨?_, ?_, ?_⟩
  all_goals
    rintro rfl
    exact absurd (hchars _ hch) (by decide)

/-- The row of an instruction is plain and not set in. -/
theorem isHead_head (i : Instruction CodeId) (h : IsName i.name) : IsHead (head i) := by
  have hblank : IsPlain [' '] := by simp [IsPlain]
  refine ⟨(isPlain_name _ h).append ?_, ?_⟩
  · split
    · simp [IsPlain]
    · -- Behind the blank stand the inline operands, divided by commas.
      refine hblank.append (isPlain_intercalate _ ?_)
      intro text htext
      obtain ⟨operand, _, htext⟩ := List.mem_filterMap.mp htext
      exact isPlain_inlineText operand text htext
  · intro more
    obtain ⟨c, cs, hname, hc, _⟩ := h
    have hblank : c ≠ ' ' := by
      rintro rfl
      cases hc
    rw [head, hname]
    exact indent_cons c _ hblank

end CellCode.Listing
