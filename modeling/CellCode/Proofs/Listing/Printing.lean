import CellCode.Listing.Printer
import CellCode.Proofs.Listing.Cells
import CellCode.Proofs.Program.Decoded

/-!
# Printed programs are read back

A printed code is read as items that spell the program which the code holds. How cells are
printed is left open: it is enough that each is printed as text that is read as a cell.

* `Print.Gives`          what printing returns, and how it may break off
* `Program.Spelled`      the items spell a program
* `printCodeTo_spelled`  printed code is read as items that spell its program
-/

namespace CellCode.Listing

/-! ## Printing that may break off -/

/-- What comes second starts with what the first remembers. -/
theorem Print.run_bind {α β : Type} (x : Print α) (f : α → Print β) (printed : Printed) :
    (x >>= f).run printed = match x.run printed with
      | (.ok a, printed) => (f a).run printed
      | (.error e, printed) => (.error e, printed) := by
  show (ExceptT.bind x f) printed = _
  cases hx : x printed with
  -- What the first returns decides; with either result both sides compute to the same.
  | mk result printed' =>
    cases result with
    | ok a =>
      simp [ExceptT.bind, ExceptT.mk, StateT.bind, Bind.bind, hx, ExceptT.bindCont, ExceptT.run]
    | error e =>
      simp [ExceptT.bind, ExceptT.mk, StateT.bind, Bind.bind, hx, ExceptT.bindCont, ExceptT.run]
      rfl

/-- Printing returns something good, or breaks off with an expected error, whatever was printed
    before. -/
def Print.Gives {α : Type} (x : Print α) (good : α → Prop) (expected : PrintError → Prop) : Prop :=
  ∀ printed, (∃ a printed', x.run printed = (.ok a, printed') ∧ good a) ∨
    ∃ e printed', x.run printed = (.error e, printed') ∧ expected e

namespace Print.Gives

variable {α β : Type} {expected : PrintError → Prop}

/-- What is returned at once is good if it is. -/
theorem pure (good : α → Prop) (a : α) (h : good a) : Gives (Pure.pure a) good expected :=
  fun printed => .inl ⟨a, printed, rfl, h⟩

/-- An error that is expected may be thrown at once. -/
theorem throw (good : α → Prop) (e : PrintError) (h : expected e) :
    Gives (MonadExcept.throw e : Print α) good expected :=
  fun printed => .inr ⟨e, printed, rfl, h⟩

/-- What comes second gives what it gives for everything good that the first returns. -/
theorem bind (good : α → Prop) (good' : β → Prop) (x : Print α) (f : α → Print β)
    (hx : Gives x good expected) (hf : ∀ a, good a → Gives (f a) good' expected) :
    Gives (x >>= f) good' expected := by
  intro printed
  rcases hx printed with ⟨a, printed', hok, ha⟩ | ⟨e, printed', herror, he⟩
  · rw [run_bind, hok]
    exact hf a ha printed'
  · rw [run_bind, herror]
    exact .inr ⟨e, printed', rfl, he⟩

/-- What is good may be weakened. -/
theorem imp (good good' : α → Prop) (x : Print α) (h : ∀ a, good a → good' a)
    (hx : Gives x good expected) : Gives x good' expected := by
  intro printed
  rcases hx printed with ⟨a, printed', hok, ha⟩ | herror
  · exact .inl ⟨a, printed', hok, h a ha⟩
  · exact .inr herror

/-- Looking at what was printed never breaks off. -/
theorem get : Gives (MonadState.get : Print Printed) (fun _ => True) expected :=
  fun printed => .inl ⟨printed, printed, rfl, trivial⟩

/-- Neither does remembering something. -/
theorem modified (f : Printed → Printed) :
    Gives (modify f : Print Unit) (fun _ => True) expected :=
  fun printed => .inl ⟨(), f printed, rfl, trivial⟩

/-- A row of printed pieces, each for a member of another row. -/
theorem mapM {γ : Type} {rel : γ → α → Prop} (good : γ → β → Prop) (f : α → Print β)
    (cs : List γ) (as : List α) (hrel : List.Forall₂ rel cs as)
    (h : ∀ c ∈ cs, ∀ a ∈ as, rel c a → Gives (f a) (good c) expected) :
    Gives (as.mapM f) (List.Forall₂ good cs) expected := by
  -- Induction on the rows: the first piece is printed, and then the others.
  induction hrel with
  | nil => exact pure _ [] .nil
  | @cons c a cs as hca _ ih =>
    rw [List.mapM_cons]
    refine bind (good c) _ _ _ (h c (by simp) a (by simp) hca) ?_
    intro b hb
    refine bind (List.Forall₂ good cs) _ _ _
      (ih fun c hc a ha => h c (by simp [hc]) a (by simp [ha])) ?_
    intro bs hbs
    exact pure _ _ (.cons hb hbs)

end Print.Gives

/-! ## Items that spell a program -/

/-- The term spells an operand, given which cells are written by which terms. -/
inductive Term.Spells (writes : CellTerm → Cell → Prop) : Term → Program.Operand → Prop
  | integer (v : Int) : Spells writes (.integer v) (.integer v)
  | stack (n : Nat) : Spells writes (.stack n) (.stack n)
  | control (n : Nat) : Spells writes (.control n) (.control n)
  | bits (literal : String) (b : Bits) (h : Bits.ofHex literal = .ok b) :
      Spells writes (.bits literal) (.bits b)
  | cell (t : CellTerm) (c : Cell) (h : writes t c) : Spells writes (.cell t) (.cell c)

/-- The item spells an instruction, given which programs are spelled by which codes. -/
inductive Item.Spells (writes : CellTerm → Cell → Prop) (same : List Item → Program → Prop) :
    Item → Program.Instruction → Prop
  | intro (line : Nat) (name : String) {terms : List Term} {blocks : List (List Item)}
      {operands : List Program.Operand} {bodies : List Program}
      (terms_spell : List.Forall₂ (Term.Spells writes) terms operands)
      (blocks_spell : List.Forall₂ same blocks bodies) :
      Spells writes same (.instruction line name terms blocks)
        (.mk name (operands ++ bodies.map .code))

/-- The items spell a program. -/
inductive Spells (writes : CellTerm → Cell → Prop) : List Item → Program → Prop
  | intro {items : List Item} {p : Program} (same : List Item → Program → Prop)
      (nested : ∀ items body, same items body → Spells writes items body)
      (instructions : List.Forall₂ (Item.Spells writes same) items p) : Spells writes items p

/-! ## The operands of an instruction -/

/-- Marks are not printed. -/
theorem filterMap_unmarked {α : Type} (f : Operand CodeId → Option α)
    (hf : f .marker = none) (os : List (Operand CodeId)) :
    os.filterMap f = (os.filter (!·.isMarker)).filterMap f := by
  rw [List.filterMap_filter]
  apply List.filterMap_congr
  intro o _
  cases o with
  | marker => exact hf
  | _ => rfl

variable {holds : Program → CodeId → Prop}

/-- An operand behind the mnemonic is printed as text that is read as the operand. -/
private theorem readsAsTerm_inline (writes : CellTerm → Cell → Prop) (p : Program.Operand)
    (o : Operand CodeId) (hp : p.Is holds o) (hinline : p.IsInline) :
    ∃ text, (inlineText o).toOption = some text ∧
      ReadsAsTerm (Term.Spells writes · p) text := by
  cases hp with
  | integer v => exact ⟨_, rfl, readsAsTerm_integer _ v (.integer v)⟩
  | stack i =>
    obtain ⟨n, rfl⟩ := Int.eq_ofNat_of_zero_le hinline
    exact ⟨_, rfl, readsAsTerm_stack _ n (.stack n)⟩
  | control i =>
    obtain ⟨n, rfl⟩ := Int.eq_ofNat_of_zero_le hinline
    exact ⟨_, rfl, readsAsTerm_control _ n (.control n)⟩
  | bits b => exact ⟨_, rfl, readsAsTerm_bits _ b (.bits _ b (Bits.ofHex_bitsText b))⟩
  -- Cells and codes do not stand behind the mnemonic.
  | cell c => cases hinline
  | code source h => cases hinline

/-! The printer picks out the operands of each kind; in an instruction that can be written this
cuts its operands into the three rows in which they stand. -/

/-- Operands that stand behind the mnemonic are printed there, and nothing else is. -/
private theorem operands_plain (writes : CellTerm → Cell → Prop) (name : String)
    (ps : List Program.Operand) (os : List (Operand CodeId))
    (h : List.Forall₂ (Program.Operand.Is holds) ps os) (hinline : ∀ p ∈ ps, p.IsInline) :
    List.Forall₂ (fun text p => ReadsAsTerm (Term.Spells writes · p) text)
        (inlineTexts ⟨name, os⟩) ps ∧
      operandCells ⟨name, os⟩ = [] ∧ operandBlocks ⟨name, os⟩ = [] := by
  -- Induction on the operands.
  induction h with
  | nil => exact ⟨.nil, rfl, rfl⟩
  | @cons p o ps os hp _ ih =>
    obtain ⟨htexts, hcells, hblocks⟩ := ih fun p hp => hinline p (by simp [hp])
    have hthis := hinline p (by simp)
    obtain ⟨text, htext, hreads⟩ := readsAsTerm_inline writes p o hp hthis
    refine ⟨?_, ?_, ?_⟩
    · have hcons : inlineTexts ⟨name, o :: os⟩ = text :: inlineTexts ⟨name, os⟩ := by
        simp only [inlineTexts, List.filterMap_cons, htext]
      rw [hcons]
      exact .cons hreads htexts
    · -- The operand is no cell, so the cells are those of the others.
      cases hp with
      | cell c => cases hthis
      | code source h => cases hthis
      | _ => exact hcells
    · -- Nor is it a code.
      cases hp with
      | cell c => cases hthis
      | code source h => cases hthis
      | _ => exact hblocks

/-- Cells are picked out as cells only. -/
private theorem operands_cells (name : String) (cells : List Cell) (os : List (Operand CodeId))
    (h : List.Forall₂ (Program.Operand.Is holds) (cells.map .cell) os) :
    inlineTexts ⟨name, os⟩ = [] ∧ operandCells ⟨name, os⟩ = cells ∧
      operandBlocks ⟨name, os⟩ = [] := by
  rw [List.forall₂_map_left_iff] at h
  induction h with
  | nil => exact ⟨rfl, rfl, rfl⟩
  | @cons c o cells os hc _ ih =>
    cases hc with
    | cell c => exact ⟨ih.1, congrArg (c :: ·) ih.2.1, ih.2.2⟩

/-- Codes are picked out as nested codes only. -/
private theorem operands_codes (name : String) (bodies : List Program)
    (os : List (Operand CodeId))
    (h : List.Forall₂ (Program.Operand.Is holds) (bodies.map .code) os) :
    inlineTexts ⟨name, os⟩ = [] ∧ operandCells ⟨name, os⟩ = [] ∧
      List.Forall₂ (fun block body => holds body block.1) (operandBlocks ⟨name, os⟩) bodies := by
  rw [List.forall₂_map_left_iff] at h
  induction h with
  | nil => exact ⟨rfl, rfl, .nil⟩
  | @cons body o bodies os hbody _ ih =>
    cases hbody with
    | code source hbody => exact ⟨ih.1, ih.2.1, .cons hbody ih.2.2⟩

/-- The operands of an instruction as the printer sorts them. -/
private theorem operands_sorted (writes : CellTerm → Cell → Prop) (i : Instruction CodeId)
    (plain : List Program.Operand) (cells : List Cell) (bodies : List Program)
    (h : List.Forall₂ (Program.Operand.Is holds) (plain ++ (cells.map .cell ++ bodies.map .code))
      (i.operands.filter (!·.isMarker)))
    (hinline : ∀ o ∈ plain, o.IsInline) :
    List.Forall₂ (fun text p => ReadsAsTerm (Term.Spells writes · p) text) (inlineTexts i) plain ∧
      operandCells i = cells ∧
      List.Forall₂ (fun block body => holds body block.1) (operandBlocks i) bodies := by
  -- The operands fall into three rows, and the marks are left out before they are looked at.
  obtain ⟨os₁, os, hplain, hrest, heq⟩ := forall₂_append_left _ _ _ h
  obtain ⟨os₂, os₃, hcells, hbodies, rfl⟩ := forall₂_append_left _ _ _ hrest
  obtain ⟨htexts₁, hcells₁, hblocks₁⟩ := operands_plain writes i.name plain os₁ hplain hinline
  obtain ⟨htexts₂, hcells₂, hblocks₂⟩ := operands_cells i.name cells os₂ hcells
  obtain ⟨htexts₃, hcells₃, hblocks₃⟩ := operands_codes i.name bodies os₃ hbodies
  simp only [inlineTexts, operandCells, operandBlocks] at *
  rw [filterMap_unmarked _ rfl i.operands, filterMap_unmarked _ rfl i.operands,
    filterMap_unmarked _ rfl i.operands, heq]
  simp only [List.filterMap_append]
  rw [htexts₂, htexts₃, hcells₁, hcells₂, hcells₃, hblocks₁, hblocks₂, List.append_nil,
    List.append_nil, List.append_nil]
  exact ⟨htexts₁, rfl, hblocks₃⟩

/-! ## Code -/

variable {expected : PrintError → Prop} {same : List Item → Program → Prop}
  {writes : CellTerm → Cell → Prop}

/-- A nested code is printed in braces, which a blank divides from what stands before them. -/
private theorem printBlock_gives (source : Option Cell) (pad : String)
    (nested : String → Print String) (body : Program) (hpad : ∀ c ∈ pad.toList, c = ' ')
    (hnested : ∀ pad : String, (∀ c ∈ pad.toList, c = ' ') →
      Print.Gives (nested pad) (ReadsAsItems (same · body)) expected) :
    Print.Gives (printBlock false source pad nested)
      (fun text => ReadsAsBlock (same · body) text ∧ ∃ cs, text.toList = ' ' :: cs) expected := by
  have hinner := hnested (pad ++ indentStep) (indent_blank pad hpad)
  -- Code that stands in its own cell is printed with the digest of the cell, inline code without.
  cases source with
  | none =>
    refine .bind _ _ _ _ hinner ?_
    intro text htext
    refine .pure _ _ ⟨readsAsBlock_plain _ text pad htext hpad, ?_⟩
    simp only [String.toList_append]
    exact ⟨_, rfl⟩
  | some cell =>
    -- The digest is remembered and not asked for, since nothing is collapsed.
    refine .bind (fun _ => True) _ _ _ Print.Gives.get ?_
    intro printed _
    rw [Bool.false_and, if_neg Bool.false_ne_true]
    refine .bind (fun _ => True) _ _ _ (Print.Gives.modified _) ?_
    intro _ _
    refine .bind _ _ _ _ hinner ?_
    intro text htext
    have hblock := readsAsBlock_comment _ (" #" ++ cell.hash) text pad (hash_ne_newline cell)
      htext hpad
    refine .pure _ _ ⟨?_, ?_⟩
    · rw [show (" \x7b ;; #" : String) = " \x7b ;;" ++ " #" from rfl]
      simpa only [String.append_assoc] using hblock
    · simp only [String.toList_append]
      exact ⟨_, rfl⟩

/-- A printed instruction is read as one item that spells it. -/
theorem printInstruction_gives (cellText : CellPrinter) (nested : CodeId → String → Print String)
    (i : Instruction CodeId) (p : Program.Instruction) (pad : String)
    (hpad : ∀ c ∈ pad.toList, c = ' ') (hp : p.Is holds i) (hprintable : p.Printable)
    (hcells : ∀ c, .cell c ∈ p.operands →
      Print.Gives (cellText i c pad) (ReadsAsCell (writes · c)) expected)
    (hnested : ∀ body k, .code body ∈ p.operands → holds body k → ∀ pad : String,
      (∀ c ∈ pad.toList, c = ' ') →
        Print.Gives (nested k pad) (ReadsAsItems (same · body)) expected) :
    Print.Gives (printInstruction false cellText nested i pad)
      (ReadsAsItems fun items => ∃ item, items = [item] ∧ item.Spells writes same p) expected := by
  obtain ⟨hname, plain, cells, bodies, hoperands, hinline⟩ := hprintable
  obtain ⟨htexts, hcellsOf, hblocksOf⟩ :=
    operands_sorted writes i plain cells bodies (hoperands ▸ hp.operands) hinline
  unfold printInstruction
  -- The cells are printed first.
  refine .bind (List.Forall₂ (fun c text => ReadsAsCell (writes · c) text) cells) _ _ _ ?_ ?_
  · rw [hcellsOf]
    have hsame : List.Forall₂ (· = ·) cells cells := List.forall₂_refl cells
    refine .mapM _ _ cells cells hsame ?_
    rintro c hc _ _ rfl
    exact hcells c (by rw [hoperands]; simp [hc])
  intro cellTexts hcellTexts
  -- The nested codes come next, each in braces.
  refine .bind (List.Forall₂ (fun body text => ReadsAsBlock (same · body) text ∧
    ∃ cs, text.toList = ' ' :: cs) bodies) _ _ _ ?_ ?_
  · refine .mapM _ _ bodies _ hblocksOf.flip ?_
    rintro body hbody ⟨k, source⟩ _ hholds
    exact printBlock_gives source pad (nested k) body hpad
      (hnested body k (by rw [hoperands]; simp [hbody]) hholds)
  intro blocks hblocks
  refine .pure _ _ ?_
  -- The texts behind the mnemonic are read as the operands before the nested codes.
  have hterms : List.Forall₂ (fun text p => ReadsAsTerm (Term.Spells writes · p) text)
      (inlineTexts i ++ cellTexts) (plain ++ cells.map .cell) := by
    refine List.rel_append htexts ?_
    rw [List.forall₂_map_right_iff]
    refine hcellTexts.flip.imp ?_
    intro text c htext
    exact readsAsTerm_of_cell _ _ text (fun t ht => .cell t c ht) htext
  -- The texts make one instruction of name, operands and nested codes.
  have hreads := readsAsItems_instruction (Term.Spells writes) same pad i.name _ blocks _ bodies
    hpad (hp.name_eq ▸ hname) hterms (hblocks.flip.imp fun _ _ h => h.1) (by
      intro block hblock
      obtain ⟨_, _, _, hstart⟩ := forall₂_mem_right _ _ hblocks block hblock
      exact hstart)
  refine hreads.imp ?_
  rintro _ ⟨line, terms, codes, rfl, hterms, hcodes⟩
  refine ⟨_, rfl, ?_⟩
  have hspells := Item.Spells.intro line i.name hterms hcodes
  -- The instruction that is spelled has the operands in their three rows.
  obtain ⟨name, operands⟩ := p
  obtain rfl : name = i.name := hp.name_eq
  obtain rfl : operands = _ := hoperands
  rwa [List.append_assoc] at hspells

/-- Printed code is read as items that spell the program which the code holds. -/
theorem printCodeTo_gives (cellText : CellPrinter) (store : CodeStore) (depth : Nat) (id : CodeId)
    (p : Program) (pad : String) (hpad : ∀ c ∈ pad.toList, c = ' ') (hordered : store.Ordered)
    (hid : id < store.size) (hdepth : store.size < id + depth) (hholds : store.Holds id p)
    (hprintable : ∀ q, p.Contains q → ∀ i ∈ q, i.Printable)
    (hcells : ∀ q id, p.Contains q → store.Holds id q → ∀ i ∈ store.get id, ∀ c,
      .cell c ∈ i.operands → ∀ pad : String, (∀ c ∈ pad.toList, c = ' ') →
        Print.Gives (cellText i c pad) (ReadsAsCell (writes · c)) expected) :
    Print.Gives (printCodeTo false cellText store depth id pad)
      (ReadsAsItems (Spells writes · p)) expected := by
  -- Induction on the depth, which is more than the codes that stand behind this one.
  induction depth generalizing id p pad with
  | zero => exact absurd (Nat.lt_trans hdepth hid) (Nat.lt_irrefl _)
  | succ depth ih =>
    have hcode := (store.holds_iff id p).mp hholds
    unfold printCodeTo
    refine .bind _ _ _ _ (.mapM (fun i => ReadsAsItems fun items =>
      ∃ item, items = [item] ∧ item.Spells writes (Spells writes) i) _ p _ hcode ?_) ?_
    · -- One instruction; its nested codes stand behind this one, which leaves depth for them.
      intro i hi j hj hij
      have hbehind : i.Is (fun body k => store.Holds k body ∧ id < k ∧ k < store.size) j := by
        refine hij.imp_mem i j ?_
        intro body k _ hk hbody
        exact ⟨hbody, hordered id k (List.mem_flatMap.mpr ⟨j, hj, hk⟩)⟩
      refine printInstruction_gives cellText _ j i pad hpad hbehind
        (hprintable p (.self p) i hi) ?_ ?_
      · -- A cell is printed with the instruction that holds it.
        intro c hc
        obtain ⟨o, ho, hcell⟩ := forall₂_mem_left _ _ hij.operands _ hc
        cases hcell with
        | cell c => exact hcells p id (.self p) hholds j hj c (List.mem_of_mem_filter ho) pad hpad
      · -- A nested code stands behind this one, so less depth is left for it.
        rintro body k hbody ⟨hk, hlt, hsize⟩ pad hpad
        refine ih k body pad hpad hsize ?_ hk (fun q hq => hprintable q (.inside i hi hbody hq))
          (fun q id hq => hcells q id (.inside i hi hbody hq))
        refine Nat.lt_of_lt_of_le hdepth ?_
        rw [Nat.add_succ, ← Nat.succ_add]
        exact Nat.add_le_add_right hlt depth
    · -- The lines are joined, and items in a row are read one after the other.
      intro lines hlines
      refine .pure _ _ ?_
      have hall : ReadsAsItems
          (fun items => List.Forall₂ (Item.Spells writes (Spells writes)) items p)
          (String.join lines) := by
        clear hcode hholds hprintable hcells
        -- Induction on the lines.
        induction hlines with
        | nil => exact readsAsItems_nothing _ .nil
        | @cons i line p lines hline _ ih =>
          rw [String.join_cons]
          exact readsAsItems_cons _ i p line _ hline ih
      exact hall.imp fun items hitems => .intro (Spells writes) (fun _ _ h => h) hitems

end CellCode.Listing
